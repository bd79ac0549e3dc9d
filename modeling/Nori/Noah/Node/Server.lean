import Nori.Brpc.ParallelChannel
import Nori.Noah.Node.Cache
import Nori.Noah.Node.MetaInfo
import Nori.Noah.Meta.Run

/-!
# Writes on a node server

`NodeServer::Set` and `NodeServer::Del`: a request whose epoch and table version are current goes
to the partition it names. The master forwards it to the slaves, and to the nodes the partition is
being migrated to, before it writes itself; everybody else just writes. The forwarding is one call
through a parallel channel, whose statuses are merged as protobuf merges them: the default value
`OK` is never copied.
-/

namespace Noah

open Butil Container List UnorderedMap

/-- `node::Status`. -/
inductive NodeServer.Status
  | ok
  | error
  | eepoch
  | notFound
  | exist
  | notMaster
  | notActive
  | migrating
  | unknown
  | unrecognized (value : Int32)
deriving DecidableEq

/-- `MergeFrom` on a message whose only field is a status. -/
def NodeServer.Status.mergeFrom (into status : NodeServer.Status) : NodeServer.Status :=
  if status = .ok then into else status

/-- The order of `Partition::State`. -/
def Common.State.rank : Common.State → ℕ
  | .kActive => 0
  | .kSlowDown => 1
  | .kStuck => 2
  | .kUnknow => 3

structure NodeServer where
  selfNode : Node
  metaInfo : Common.MetaInfo
  migratingInfo : OrderedMap Bytes (OrderedSet Node)
  caches : UnorderedMap Bytes Cache

/-- The fields a write request starts with. -/
structure WriteHeader where
  epoch : ℤ
  version : ℤ
  tableName : Bytes
  id : Int32

structure SetRequest extends WriteHeader where
  keyValues : UnorderedMap Bytes Bytes
  expired : Int32

structure DelRequest extends WriteHeader where
  keys : List Bytes

structure MigrateRequest extends WriteHeader where
  keyValues : UnorderedMap Bytes ValueInfo
  expired : Bool

/-- What a write takes from its surroundings: the time, the view `UpdateMetaInfo` leaves if it is
called and does not fail, how the call to each target ends, and with `open_persistence` whether
leveldb takes the write. -/
structure WriteEnv where
  now : Int32
  update : Option Common.MetaInfo
  outcomes : ℕ → Brpc.SubCall NodeServer.Status
  ldb : Option Bool

/-- `TableInfoString`: `name_id`. -/
def tableInfoString (tableName : Bytes) (id : Int32) : Bytes := tableName ++ 95 :: intToString id

theorem tableInfoString_inj {name name' : Bytes} {id id' : Int32} :
    tableInfoString name id = tableInfoString name' id' ↔ name = name' ∧ id = id' := by
  constructor
  · intro h
    obtain ⟨hname, hid⟩ := append_separator_inj (underscore_notMem_intToString id)
      (underscore_notMem_intToString id') h
    exact ⟨hname, intToString_injective hid⟩
  · rintro ⟨rfl, rfl⟩
    rfl

namespace NodeServer

variable {server : NodeServer} {env : WriteEnv} {header : WriteHeader} {p : Common.Partition}

/-- `CheckEpoch`: the view is updated first when the request is newer. A request that is accepted
has a partition, the unknown one where nothing was filled in. -/
def fill (env : WriteEnv) (header : WriteHeader) (server : NodeServer) :
    Option Common.Partition × NodeServer :=
  let check (view : Common.MetaInfo) : Option Common.Partition × NodeServer :=
    let r := checkEpoch header.epoch header.version header.tableName header.id.toInt view
    (if r.1 then some (r.2.getD .unknown) else none, { server with metaInfo := view })
  if server.metaInfo.version.epoch < header.epoch ∨
      server.metaInfo.version.version < header.version then
    match env.update with
    | some view => check view
    | none => (none, server)
  else check server.metaInfo

/-- The nodes the master forwards a write to: the slaves, and the nodes of `CheckMigrating`. -/
def targets (header : WriteHeader) (p : Common.Partition) (server : NodeServer) : List Node :=
  p.slaves ++ ((server.migratingInfo.find? (tableInfoString header.tableName header.id)).map
    OrderedSet.elems).getD []

/-- Whether a write goes on after the fan-out of the master. -/
def forwarded (env : WriteEnv) (header : WriteHeader) (p : Common.Partition)
    (server : NodeServer) : Bool :=
  if server.selfNode = p.master then
    let targets := server.targets header p
    if targets = [] then true
    else
      -- `fail_limit` is left at its default
      match Brpc.callMethod Status.mergeFrom .ok (-1) ((range targets.length).map env.outcomes) with
      | .error _ => false
      | .ok status => decide (status = .ok)
  else true

/-- `NodeData::GetCache`, which makes a cache for a `Set`. -/
def cache (tableName : Bytes) (id : Int32) (server : NodeServer) : Cache :=
  (server.caches.lookup (tableInfoString tableName id)).getD .empty

/-- `Set`: only an active partition takes it. -/
def set (env : WriteEnv) (request : SetRequest) (server : NodeServer) : Status × NodeServer :=
  match server.fill env request.toWriteHeader with
  | (none, server) => (.eepoch, server)
  | (some p, server) =>
    if p.id = -1 then (.notFound, server)
    else if Common.State.kSlowDown.rank ≤ p.state.rank then (.notActive, server)
    else if server.forwarded env request.toWriteHeader p = false then (.error, server)
    else
      -- the cache is written before leveldb is asked
      (if env.ldb = some false then .error else .ok, { server with
          caches := server.caches.assign (tableInfoString request.tableName request.id)
            ((server.cache request.tableName request.id).set env.now request.keyValues
              request.expired) })

/-- `Del`: a partition that lost replicas takes it too, and no cache is made. -/
def del (env : WriteEnv) (request : DelRequest) (server : NodeServer) : Status × NodeServer :=
  match server.fill env request.toWriteHeader with
  | (none, server) => (.eepoch, server)
  | (some p, server) =>
    if p.id = -1 then (.notFound, server)
    else if Common.State.kSlowDown.rank < p.state.rank then (.notActive, server)
    else if server.forwarded env request.toWriteHeader p = false then (.error, server)
    else
      (if env.ldb = some false then .error else .ok, { server with
          -- a missing cache stays missing
          caches := server.caches.modify (tableInfoString request.tableName request.id)
            (Cache.del request.keys) })

/-! ## The fan-out -/

theorem foldl_mergeFrom_eq_ok {statuses : List Status} {status : Status} :
    statuses.foldl Status.mergeFrom status = .ok ↔ status = .ok ∧ ∀ s ∈ statuses, s = .ok := by
  induction statuses generalizing status with
  | nil => simp
  | cons first statuses ih =>
    rw [foldl_cons, ih, forall_mem_cons]
    by_cases hfirst : first = .ok
    · simp [Status.mergeFrom, hfirst]
    · simp [Status.mergeFrom, hfirst]

/-- The fan-out of the master succeeds if there is nobody to call, or somebody replied and
everybody who did replied `OK`. -/
theorem forwarded_iff (hmaster : server.selfNode = p.master) :
    server.forwarded env header p = true ↔ server.targets header p = [] ∨
      ((∃ i < (server.targets header p).length, (env.outcomes i).isFailed = false) ∧
        ∀ i < (server.targets header p).length, ∀ status,
          env.outcomes i = .replied status → status = .ok) := by
  unfold forwarded
  rw [if_pos hmaster]
  by_cases hnil : server.targets header p = []
  · simp [hnil]
  -- the outcomes are indexed by target, the channel sees them as a list
  · have hreplies : (∀ status ∈ ((range (server.targets header p).length).map
        env.outcomes).filterMap Brpc.SubCall.response?, status = .ok) ↔
        ∀ i < (server.targets header p).length, ∀ status,
          env.outcomes i = .replied status → status = .ok := by
      constructor
      · intro h i hi status hstatus
        refine h status (mem_filterMap.mpr ⟨env.outcomes i, ?_, ?_⟩)
        · exact mem_map.mpr ⟨i, mem_range.mpr hi, rfl⟩
        · rw [hstatus]
          rfl
      · intro h status hstatus
        obtain ⟨sub, hsub, hresponse⟩ := mem_filterMap.mp hstatus
        obtain ⟨i, hi, rfl⟩ := mem_map.mp hsub
        cases hcall : env.outcomes i with
        | failed ec => simp [hcall, Brpc.SubCall.response?] at hresponse
        | replied r =>
          simp only [hcall, Brpc.SubCall.response?, Option.some.injEq] at hresponse
          exact hresponse ▸ h i (mem_range.mp hi) r hcall
    have hexists : (∃ sub ∈ (range (server.targets header p).length).map env.outcomes,
        sub.isFailed = false) ↔
        ∃ i < (server.targets header p).length, (env.outcomes i).isFailed = false := by
      simp [mem_map, mem_range]
    rw [if_neg hnil, ← hreplies, ← hexists]
    simp only [hnil, false_or]
    by_cases hsome : ∃ sub ∈ (range (server.targets header p).length).map env.outcomes,
        sub.isFailed = false
    · rw [Brpc.callMethod_of_replied _ _ hsome, decide_eq_true_eq, foldl_mergeFrom_eq_ok]
      simp only [hsome, true_and]
    · obtain ⟨ec, hec⟩ := Brpc.callMethod_of_failed Status.mergeFrom .ok hsome
      simp only [hec, hsome, Bool.false_eq_true, false_and]

/-! ## Answers -/

theorem fill_frame (env : WriteEnv) (header : WriteHeader) (server : NodeServer) :
    (server.fill env header).2 =
      { server with metaInfo := (server.fill env header).2.metaInfo } := by
  unfold fill
  simp only
  split
  · split <;> rfl
  · rfl

theorem fill_forwarded {server' : NodeServer} (h : server.fill env header = (some p, server')) :
    server'.forwarded env header p = server.forwarded env header p := by
  have hframe := fill_frame env header server
  rw [h] at hframe
  simp only at hframe
  rw [hframe]
  rfl

/-- A write that is let through by `CheckEpoch` and by the state of its partition, and that the
server itself can carry out. -/
def Admitted (bound : ℕ) (env : WriteEnv) (header : WriteHeader) (server : NodeServer)
    (p : Common.Partition) : Prop :=
  (server.fill env header).1 = some p ∧ p.id ≠ -1 ∧ p.state.rank < bound ∧ env.ldb ≠ some false

theorem checks_eq_ok {a b c d : Prop} [Decidable a] [Decidable b] [Decidable c] [Decidable d] :
    (if a then Status.notFound else if b then .notActive else if c then .error
      else if d then .error else .ok) = .ok ↔ ¬a ∧ ¬b ∧ ¬c ∧ ¬d := by
  split_ifs <;> simp_all

theorem set_eq_ok_iff {request : SetRequest} : (server.set env request).1 = .ok ↔
      ∃ p, Admitted 1 env request.toWriteHeader server p ∧
        server.forwarded env request.toWriteHeader p = true := by
  unfold set Admitted
  rcases hfill : server.fill env request.toWriteHeader with ⟨_ | p, server'⟩
  · simp
  · simp only [apply_ite Prod.fst, checks_eq_ok, fill_forwarded hfill, Option.some.injEq,
      exists_eq_left', Common.State.rank.eq_2, not_le, Bool.not_eq_false, and_assoc]
    tauto

theorem del_eq_ok_iff {request : DelRequest} : (server.del env request).1 = .ok ↔
      ∃ p, Admitted 2 env request.toWriteHeader server p ∧
        server.forwarded env request.toWriteHeader p = true := by
  unfold del Admitted
  rcases hfill : server.fill env request.toWriteHeader with ⟨_ | p, server'⟩
  · simp
  · simp only [apply_ite Prod.fst, checks_eq_ok, fill_forwarded hfill, Option.some.injEq,
      exists_eq_left', Common.State.rank.eq_2, not_lt, Bool.not_eq_false, and_assoc]
    rw [Nat.lt_succ_iff]
    tauto

/-- A server that answers `OK` has written. -/
theorem cache_set {request : SetRequest} (h : (server.set env request).1 = .ok) :
    (server.set env request).2.cache request.tableName request.id =
      (server.cache request.tableName request.id).set env.now request.keyValues
        request.expired := by
  have hframe := fill_frame env request.toWriteHeader server
  unfold set at h ⊢
  rcases hfill : server.fill env request.toWriteHeader with ⟨_ | p, server'⟩
  · simp [hfill] at h
  · simp only [hfill] at h hframe ⊢
    split_ifs at h ⊢
    rw [cache, lookup_assign, if_pos rfl, Option.getD_some, cache, hframe]
    rfl

theorem cache_set_cases (env : WriteEnv) (request : SetRequest) (server : NodeServer)
    (tableName : Bytes) (id : Int32) :
    (server.set env request).2.cache tableName id = server.cache tableName id ∨
      (tableName = request.tableName ∧ id = request.id ∧
        (server.set env request).2.cache tableName id =
          (server.cache tableName id).set env.now request.keyValues request.expired) := by
  have hframe := fill_frame env request.toWriteHeader server
  unfold set
  rcases hfill : server.fill env request.toWriteHeader with ⟨_ | p, server'⟩
  · refine .inl ?_
    rw [hfill] at hframe
    rw [cache, hframe]
    rfl
  · rw [hfill] at hframe
    simp only at hframe ⊢
    have hcaches : server'.caches = server.caches := by rw [hframe]
    have hkept : server'.cache tableName id = server.cache tableName id := by
      simp only [cache, hcaches]
    split
    · exact .inl hkept
    split
    · exact .inl hkept
    split
    · exact .inl hkept
    simp only [cache, lookup_assign, hcaches]
    by_cases hname : tableInfoString tableName id = tableInfoString request.tableName request.id
    · obtain ⟨rfl, rfl⟩ := tableInfoString_inj.mp hname
      exact .inr ⟨rfl, rfl, by simp⟩
    · exact .inl (by rw [if_neg hname])

theorem cache_del {request : DelRequest} (h : (server.del env request).1 = .ok) :
    (server.del env request).2.cache request.tableName request.id =
      (server.cache request.tableName request.id).del request.keys := by
  have hframe := fill_frame env request.toWriteHeader server
  unfold del at h ⊢
  rcases hfill : server.fill env request.toWriteHeader with ⟨_ | p, server'⟩
  · simp [hfill] at h
  · simp only [hfill] at h hframe ⊢
    split_ifs at h ⊢
    rw [cache, lookup_modify, if_pos rfl, cache, hframe]
    cases server.caches.lookup (tableInfoString request.tableName request.id) with
    | none => simp [Cache.del_empty]
    | some c => rfl

/-! ## Acknowledged writes -/

/-- Every slave has executed the write and said so. -/
def OnEverySlave (env : WriteEnv) (p : Common.Partition) : Prop :=
  ∀ i < p.slaves.length, env.outcomes i = .replied .ok

/-- A slave could not be reached, somebody else was, and everybody who replied accepted. -/
def PartlyFailed (env : WriteEnv) (header : WriteHeader) (server : NodeServer)
    (p : Common.Partition) : Prop :=
  (∃ i < p.slaves.length, (env.outcomes i).isFailed = true) ∧
    (∃ i < (server.targets header p).length, (env.outcomes i).isFailed = false) ∧
    ∀ i < (server.targets header p).length, ∀ status,
      env.outcomes i = .replied status → status = .ok

theorem slaves_le_targets : p.slaves.length ≤ (server.targets header p).length := by
  rw [targets, length_append]
  exact Nat.le_add_right _ _

theorem onEverySlave_iff (hmaster : server.selfNode = p.master) :
    (server.forwarded env header p = true → OnEverySlave env p) ↔
      ¬PartlyFailed env header server p := by
  rw [forwarded_iff hmaster]
  constructor
  · rintro h ⟨⟨i, hi, hfailed⟩, hsome, hok⟩
    have hreplied := h (.inr ⟨hsome, hok⟩) i hi
    rw [hreplied] at hfailed
    cases hfailed
  · rintro hnot (hnil | ⟨hsome, hok⟩) i hi
    · have hle : p.slaves.length ≤ (server.targets header p).length := slaves_le_targets
      rw [hnil, length_nil] at hle
      omega
    · cases hcall : env.outcomes i with
      | failed ec => exact absurd ⟨⟨i, hi, by rw [hcall]; rfl⟩, hsome, hok⟩ hnot
      | replied status => rw [hok i (hi.trans_le slaves_le_targets) status hcall]

/-- **Acknowledged writes.** What a master acknowledges is on every slave of the partition exactly
if the fan-out did not fail in part, for every admitted `Set` and every admitted `Del`. -/
theorem acknowledged_replicated_iff (server : NodeServer) (env : WriteEnv) :
    (∀ request : SetRequest, ((server.set env request).1 = .ok → ∀ p,
        (server.fill env request.toWriteHeader).1 = some p → server.selfNode = p.master →
          OnEverySlave env p) ↔
      ∀ p, Admitted 1 env request.toWriteHeader server p → server.selfNode = p.master →
        ¬PartlyFailed env request.toWriteHeader server p) ∧
    ∀ request : DelRequest, ((server.del env request).1 = .ok → ∀ p,
        (server.fill env request.toWriteHeader).1 = some p → server.selfNode = p.master →
          OnEverySlave env p) ↔
      ∀ p, Admitted 2 env request.toWriteHeader server p → server.selfNode = p.master →
        ¬PartlyFailed env request.toWriteHeader server p := by
  -- the two operations differ in the states they admit only
  have hcommon : ∀ (bound : ℕ) (header : WriteHeader) (answeredOk : Prop),
      (answeredOk ↔ ∃ p, Admitted bound env header server p ∧
        server.forwarded env header p = true) →
      ((answeredOk → ∀ p, (server.fill env header).1 = some p → server.selfNode = p.master →
        OnEverySlave env p) ↔
      ∀ p, Admitted bound env header server p → server.selfNode = p.master →
        ¬PartlyFailed env header server p) := by
    intro bound header answeredOk hanswer
    constructor
    · intro h p hadmitted hmaster
      -- an admitted write that is forwarded is answered `OK`
      refine (onEverySlave_iff hmaster).mp fun hforwarded => ?_
      exact h (hanswer.mpr ⟨p, hadmitted, hforwarded⟩) p hadmitted.1 hmaster
    · intro h hok p hp hmaster
      obtain ⟨q, hadmitted, hforwarded⟩ := hanswer.mp hok
      obtain rfl : p = q := Option.some.inj (hp.symm.trans hadmitted.1)
      exact (onEverySlave_iff hmaster).mpr (h p hadmitted hmaster) hforwarded
  exact ⟨fun request => hcommon 1 _ _ set_eq_ok_iff, fun request => hcommon 2 _ _ del_eq_ok_iff⟩

end NodeServer

/-! ## A slave that missed a write -/

namespace Sample

/-- A server whose view has a table of one active partition. -/
def serverOf (port : Int32) (slaves : List Node) : NodeServer where
  selfNode := node port
  metaInfo := (NodeServer.updateMetaInfo { version := ⟨1, 1⟩, status := .ok, info :=
    [{ table 3 [⟨0, .active, some (node 1), slaves⟩] with version := 1 }] } .empty).1
  migratingInfo := ∅
  caches := ∅

/-- The master of a partition with two slaves. -/
def master : NodeServer := serverOf 1 [node 2, node 3]

/-- The first slave replies, the second one cannot be reached. -/
def lossy : WriteEnv where
  now := 1
  update := none
  outcomes i := if i = 0 then .replied .ok else .failed 112
  ldb := none

def header : WriteHeader := ⟨1, 1, bytes "t", 0⟩

end Sample

open Sample

/-- The master acknowledges both writes, although its second slave has seen neither. -/
theorem lossy_acknowledged : (master.set lossy
        ⟨header, assign ∅ (bytes "k") (bytes "v"), 0⟩).1 = .ok ∧
      (master.del lossy ⟨header, [bytes "k"]⟩).1 = .ok ∧
      ∃ p, (master.fill lossy header).1 = some p ∧
        master.selfNode = p.master ∧ p.slaves = [node 2, node 3] ∧
        lossy.outcomes 1 = .failed 112 :=
  ⟨rfl, rfl, ⟨0, .kActive, node 1, [node 2, node 3]⟩, rfl, rfl, rfl, rfl⟩

end Noah
