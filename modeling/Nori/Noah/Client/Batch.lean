import Nori.Noah.Client.Cluster
import Nori.Noah.Node.Read

/-!
# Batches of a client

`Cluster::BatchSet` and `Cluster::BatchGet` split their keys by hash, one request for each partition
that gets any, and send all requests at once, request `i` of a table to the node that stands at
place `i` among the masters. The answers come back in the order of the requests. If the partitions
are numbered from zero, a batch of reads after a batch of writes finds what was written.

A request may reach more servers than the one the client sent it to: the master forwards a write,
and a server that takes it writes it as well. All requests of a batch are under way at once, so the
servers execute them in any order.
-/

namespace Noah

open Butil Container List Option NodeServer Cluster Function Int32

/-! ## Buckets -/

theorem getElem?_foldl_modify {α β : Type} (f : α → ℕ) (g : β → α → β) (xs : List α)
    (buckets : List β) (i : ℕ) :
    (xs.foldl (fun buckets x => buckets.modify (f x) (g · x)) buckets)[i]? =
      buckets[i]?.map fun b => (xs.filter (f · = i)).foldl g b := by
  induction xs generalizing buckets with
  | nil => simp
  | cons x xs ih =>
    rw [foldl_cons, ih, getElem?_modify]
    by_cases hx : f x = i
    · simp [hx, Option.map_map, comp_def]
    · simp [hx]

namespace Cluster

/-- `noah::common::Status`. -/
inductive Status
  | kOk
  | kError
  | kRedirect
  | kExist
  | kNotFound
  | kShouldUpdate
  | kNotSupport
  | kUnknow
deriving DecidableEq

def convertNodeStatus : NodeServer.Status → Status
  | .ok => .kOk
  | .error => .kError
  | .eepoch | .notMaster => .kShouldUpdate
  | .notFound => .kNotFound
  | .exist => .kExist
  | _ => .kError

@[simp] theorem convertNodeStatus_eq_kOk {status : NodeServer.Status} :
    convertNodeStatus status = .kOk ↔ status = .ok := by
  cases status <;> simp [convertNodeStatus]

/-- The place of a key among `partitionNum` partitions. -/
def slot (partitionNum : ℕ) (key : Bytes) : ℕ := (Butil.hash key).toNat % partitionNum

def splitArrayRquest (keys : List Bytes) (partitionNum : ℕ) : List (List Bytes) :=
  if partitionNum = 1 then [keys]
  else keys.foldl (fun split key => split.modify (slot partitionNum key) (· ++ [key]))
    (replicate partitionNum [])

def splitSetRequst (keyValues : UnorderedMap Bytes Bytes) (partitionNum : ℕ) :
    List (UnorderedMap Bytes Bytes) :=
  if partitionNum = 1 then [keyValues]
  else keyValues.entries.foldl (fun split e =>
    split.modify (slot partitionNum e.1) (·.assign e.1 e.2)) (replicate partitionNum ∅)

variable {partitionNum : ℕ} {keys : List Bytes} {keyValues : UnorderedMap Bytes Bytes}

theorem slot_lt (h : 0 < partitionNum) (key : Bytes) : slot partitionNum key < partitionNum :=
  Nat.mod_lt _ h

theorem getElem?_splitArrayRquest (h : 0 < partitionNum) (i : ℕ) :
    (splitArrayRquest keys partitionNum)[i]? =
      if i < partitionNum then some (keys.filter (slot partitionNum · = i)) else none := by
  unfold splitArrayRquest
  split
  · rename_i hone
    subst hone
    -- with a single partition the keys are not hashed
    have hall : keys.filter (slot 1 · = 0) = keys := by simp [slot, Nat.mod_one]
    rcases i with _ | i
    · simp [hall]
    · simp
  · rw [getElem?_foldl_modify (slot partitionNum) (fun l key => l ++ [key]), getElem?_replicate]
    split <;> simp [foldl_append_eq_append, ← flatMap_def]

variable {i : ℕ} {node : Node} {key : Bytes}

theorem getElem?_splitSetRequst (keyValues : UnorderedMap Bytes Bytes) (h : 0 < partitionNum)
    (hi : i < partitionNum) :
    ∃ split, (splitSetRequst keyValues partitionNum)[i]? = some split ∧ ∀ key, split.lookup key =
        if slot partitionNum key = i then keyValues.lookup key else none := by
  unfold splitSetRequst
  split
  · rename_i hone
    subst hone
    obtain rfl : i = 0 := by omega
    exact ⟨keyValues, rfl, fun key => by simp [slot, Nat.mod_one]⟩
  · rw [getElem?_foldl_modify (fun e : Σ _ : Bytes, Bytes => slot partitionNum e.1)
      (fun (m : UnorderedMap Bytes Bytes) e => m.assign e.1 e.2), getElem?_replicate,
      if_pos hi]
    refine ⟨_, rfl, fun key => ?_⟩
    have hnodup : (keyValues.entries.filter (slot partitionNum ·.1 = i)).NodupKeys :=
      NodupKeys.sublist filter_sublist keyValues.nodupKeys
    have hlookup := UnorderedMap.lookup_foldl_assign (fun v : Bytes => v) hnodup ∅ key
    rw [hlookup]
    ext v
    simp only [Option.map_id', AList.lookup_empty, Option.or_none]
    rw [← Option.mem_def, mem_dlookup_iff hnodup, mem_filter]
    split_ifs with hkey
    · simp [hkey, ← AList.mem_lookup_iff]
    · simp [hkey]

/-! ## Requests -/

/-- The loop of a batch: each partition that gets something gets a request, which goes to the master
at its place. -/
def subRequests {α β : Type} (info : RequestInfo) (isEmpty : α → Bool) (split : List α)
    (request : ℕ → α → β) : List (Node × β) :=
  (range info.tableInfo.partitionNum).filterMap fun i =>
    match split[i]?, info.tableInfo.getAllMasters[i]? with
    | some part, some node => if isEmpty part then none else some (node, request i part)
    | _, _ => none

/-- The fields every request starts with. -/
def requestHeader (info : RequestInfo) (tableName : Bytes) (i : ℕ) : WriteHeader :=
  ⟨info.version.epoch, info.tableInfo.version, tableName, .ofNat i⟩

/-- The requests of `BatchSet`. -/
def setRequests (info : RequestInfo) (tableName : Bytes) (keyValues : UnorderedMap Bytes Bytes)
    (ttl : Int32) : List (Node × SetRequest) :=
  subRequests info (·.entries.isEmpty) (splitSetRequst keyValues info.tableInfo.partitionNum)
    fun i part => ⟨requestHeader info tableName i, part, ttl⟩

/-- The requests of `BatchGet`. -/
def getRequests (info : RequestInfo) (tableName : Bytes) (keys : List Bytes) :
    List (Node × GetRequest) :=
  subRequests info isEmpty (splitArrayRquest keys info.tableInfo.partitionNum)
    fun i part => ⟨requestHeader info tableName i, part⟩

/-- What a batch returns when its call fails. -/
def failedStatus (errorCode : ℤ) : Status := if errorCode = 112 then .kShouldUpdate else .kError

/-- The end of `BatchSet`. -/
def setStatus (outcomes : List (Brpc.SubCall NodeServer.Status)) : Status :=
  match Brpc.callMapped 1 outcomes with
  | .error errorCode => failedStatus errorCode
  | .ok statuses =>
    match statuses.find? (· ≠ .ok) with
    | some status => convertNodeStatus status
    | none => .kOk

/-- The loop of `BatchGet` over its answers: value `i` of an answer belongs to key `i` of its
request. -/
def collectValues : List (GetRequest × GetResponse) → UnorderedMap Bytes Bytes →
    Status × UnorderedMap Bytes Bytes
  | [], keyValues => (.kOk, keyValues)
  | (request, response) :: rest, keyValues =>
    if response.status = .ok then
      collectValues rest ((request.keys.zip response.values).foldl
        (fun m e => m.assign e.1 e.2) keyValues)
    else (convertNodeStatus response.status, keyValues)

/-- The end of `BatchGet`. -/
def getResult (requests : List GetRequest) (outcomes : List (Brpc.SubCall GetResponse))
    (keyValues : UnorderedMap Bytes Bytes) : Status × UnorderedMap Bytes Bytes :=
  match Brpc.callMapped 1 outcomes with
  | .error errorCode => (failedStatus errorCode, keyValues)
  | .ok responses => collectValues (requests.zip responses) keyValues

/-! ## Batches -/

/-- A server executes a write. -/
structure Delivery where
  node : Node
  env : WriteEnv
  request : SetRequest

def deliver (servers : Node → NodeServer) (d : Delivery) : Node → NodeServer :=
  update servers d.node ((servers d.node).set d.env d.request).2

/-- A status is what a server has answered to a request. -/
def Answered (servers : Node → NodeServer) (deliveries : List Delivery) (node : Node)
    (request : SetRequest) (status : NodeServer.Status) : Prop :=
  ∃ before env after, deliveries = before ++ ⟨node, env, request⟩ :: after ∧
    ((before.foldl deliver servers node).set env request).1 = status

/-- `BatchSet` as a whole: servers have executed its requests, each as often and in whatever order,
those it was sent to have answered, and it has returned. -/
def BatchSet (info : RequestInfo) (tableName : Bytes) (keyValues : UnorderedMap Bytes Bytes)
    (ttl : Int32) (servers : Node → NodeServer) (deliveries : List Delivery) (status : Status) :
    Prop :=
  (∀ d ∈ deliveries, ∃ node, (node, d.request) ∈ setRequests info tableName keyValues ttl) ∧
  ∃ outcomes, Forall₂ (fun r outcome => ∀ status, outcome = Brpc.SubCall.replied status →
      Answered servers deliveries r.1 r.2 status)
    (setRequests info tableName keyValues ttl) outcomes ∧ status = setStatus outcomes

/-- `BatchGet` as a whole. The servers may have pulled another view by the time they answer. -/
def BatchGet (info : RequestInfo) (tableName : Bytes) (keys : List Bytes)
    (servers : Node → NodeServer) (env : Int32 → ReadEnv) (keyValues : UnorderedMap Bytes Bytes)
    (result : Status × UnorderedMap Bytes Bytes) : Prop :=
  ∃ outcomes, Forall₂ (fun r outcome => ∀ response, outcome = Brpc.SubCall.replied response →
      ∃ view, response = (get (env r.2.id) r.2 { servers r.1 with metaInfo := view }).1)
    (getRequests info tableName keys) outcomes ∧
    result = getResult ((getRequests info tableName keys).map (·.2)) outcomes keyValues

/-! ## What is sent -/

variable {info : RequestInfo} {tableName : Bytes} {ttl : Int32}

theorem mem_subRequests {α β : Type} {isEmpty : α → Bool} {split : List α} {request : ℕ → α → β}
    {r : β} : (node, r) ∈ subRequests info isEmpty split request ↔
      ∃ i part, i < info.tableInfo.partitionNum ∧ split[i]? = some part ∧
        info.tableInfo.getAllMasters[i]? = some node ∧ isEmpty part = false ∧
          r = request i part := by
  simp only [subRequests, mem_filterMap, mem_range]
  refine exists_congr fun i => ?_
  cases hpart : split[i]? with
  | none => simp
  | some part =>
    cases hnode : info.tableInfo.getAllMasters[i]? with
    | none => simp
    | some node' => cases hempty : isEmpty part <;> simp [hempty, @eq_comm _ r]

theorem ofNat_inj_of_lt {j n : ℕ} (hn : n < 2 ^ 31) (hi : i < n) (hj : j < n)
    (h : ofNat i = ofNat j) : i = j := by
  have hnat := congrArg toInt h
  rw [toInt_ofNat_of_lt (by omega), toInt_ofNat_of_lt (by omega)] at hnat
  omega

theorem lookup_of_mem_setRequests {request : SetRequest} (hn : info.tableInfo.partitionNum < 2 ^ 31)
    (h : (node, request) ∈ setRequests info tableName keyValues ttl)
    (hid : request.id = .ofNat (slot info.tableInfo.partitionNum key)) :
    request.tableName = tableName ∧ request.expired = ttl ∧
      request.keyValues.lookup key = keyValues.lookup key := by
  obtain ⟨i, part, hi, hpart, -, -, rfl⟩ := mem_subRequests.mp h
  have hpos : 0 < info.tableInfo.partitionNum := by omega
  obtain rfl := ofNat_inj_of_lt hn hi (slot_lt hpos key) hid
  obtain ⟨part', hpart', hlookup⟩ := getElem?_splitSetRequst keyValues hpos hi
  obtain rfl := some.inj (hpart.symm.trans hpart')
  exact ⟨rfl, rfl, by rw [hlookup, if_pos rfl]⟩

theorem mem_setRequests {value : Bytes} (hpos : 0 < info.tableInfo.partitionNum)
    (hnode : info.tableInfo.getAllMasters[slot info.tableInfo.partitionNum key]? = some node)
    (hvalue : keyValues.lookup key = some value) :
    ∃ request, (node, request) ∈ setRequests info tableName keyValues ttl ∧
      request.id = .ofNat (slot info.tableInfo.partitionNum key) := by
  obtain ⟨part, hpart, hlookup⟩ := getElem?_splitSetRequst keyValues hpos (slot_lt hpos key)
  have hfound : part.lookup key = some value := by rw [hlookup, if_pos rfl, hvalue]
  refine ⟨_, mem_subRequests.mpr ⟨_, part, slot_lt hpos key, hpart, hnode, ?_, rfl⟩, rfl⟩
  rw [isEmpty_eq_false_iff]
  exact ne_nil_of_mem (UnorderedMap.mem_entries_of_lookup hfound)

/-! ## What is written -/

section Written

variable {servers : Node → NodeServer} {deliveries : List Delivery} {key : Bytes}

/-- The entry of a key at a node, in the cache of the partition the key belongs to. -/
def entry (info : RequestInfo) (tableName : Bytes) (node : Node) (key : Bytes)
    (servers : Node → NodeServer) : Option ValueInfo :=
  ((servers node).cache tableName (.ofNat (slot info.tableInfo.partitionNum key))).keyValues.lookup
    key

section

variable (hn : info.tableInfo.partitionNum < 2 ^ 31)
include hn

variable {node : Node}

theorem entry_deliver {d : Delivery}
    (hd : ∃ node, (node, d.request) ∈ setRequests info tableName keyValues ttl) :
    entry info tableName node key (deliver servers d) = entry info tableName node key servers ∨
    entry info tableName node key (deliver servers d) = ((keyValues.lookup key).map fun value =>
        ⟨value, if 0 < ttl then d.env.now + ttl else 0⟩).or
          (entry info tableName node key servers) := by
  unfold entry deliver
  by_cases hnode : node = d.node
  · subst hnode
    rw [update_self]
    rcases cache_set_cases d.env d.request (servers d.node) tableName
      (.ofNat (slot info.tableInfo.partitionNum key)) with hkept | ⟨-, hid, hset⟩
    · exact .inl (by rw [hkept])
    · obtain ⟨-, rfl, hlookup⟩ := lookup_of_mem_setRequests hn hd.choose_spec hid.symm
      exact .inr (by rw [hset, Cache.lookup_set, hlookup])
  · exact .inl (by rw [update_of_ne hnode])

theorem entry_deliver_of_ok {env : WriteEnv} {request : SetRequest} {value : Bytes}
    (hmem : (node, request) ∈ setRequests info tableName keyValues ttl)
    (hid : request.id = .ofNat (slot info.tableInfo.partitionNum key))
    (hvalue : keyValues.lookup key = some value)
    (hok : ((servers node).set env request).1 = .ok) :
    entry info tableName node key (deliver servers ⟨node, env, request⟩) =
      some ⟨value, if 0 < ttl then env.now + ttl else 0⟩ := by
  obtain ⟨rfl, rfl, hlookup⟩ := lookup_of_mem_setRequests hn hmem hid
  have hset := cache_set hok
  unfold entry deliver
  rw [update_self, ← hid, hset, Cache.lookup_set, hlookup, hvalue]
  rfl

variable (hd : ∀ d ∈ deliveries,
  ∃ node, (node, d.request) ∈ setRequests info tableName keyValues ttl)
include hd

theorem entry_foldl_of_none (hvalue : keyValues.lookup key = none) :
    entry info tableName node key (deliveries.foldl deliver servers) =
      entry info tableName node key servers := by
  refine foldlRecOn (motive := fun servers' => entry info tableName node key servers' =
    entry info tableName node key servers) deliveries _ rfl fun servers' ih d hmem => ?_
  rcases entry_deliver hn (hd d hmem) with hkept | hwritten
  · exact hkept.trans ih
  · rw [hwritten, hvalue]
    exact ih

theorem entry_foldl_of_some {value : Bytes} {P : Int32 → Prop}
    (hP : ∀ d ∈ deliveries, P (if 0 < ttl then d.env.now + ttl else 0))
    (hvalue : keyValues.lookup key = some value)
    (h : ∃ expired, entry info tableName node key servers = some ⟨value, expired⟩ ∧ P expired) :
    ∃ expired, entry info tableName node key (deliveries.foldl deliver servers) =
      some ⟨value, expired⟩ ∧ P expired := by
  refine foldlRecOn (motive := fun servers => ∃ expired, entry info tableName node key servers =
    some ⟨value, expired⟩ ∧ P expired) deliveries _ h fun servers ih d hmem => ?_
  rcases entry_deliver hn (hd d hmem) with hkept | hwritten
  · rwa [hkept]
  · rw [hwritten, hvalue]
    exact ⟨_, rfl, hP d hmem⟩

end

theorem answered_of_setStatus {requests : List (Node × SetRequest)}
    {outcomes : List (Brpc.SubCall NodeServer.Status)}
    (houtcomes : Forall₂ (fun r outcome => ∀ status,
      outcome = Brpc.SubCall.replied status → Answered servers deliveries r.1 r.2 status)
        requests outcomes) (hok : setStatus outcomes = .kOk) :
    ∀ r ∈ requests, Answered servers deliveries r.1 r.2 .ok := by
  unfold setStatus at hok
  split at hok
  · rename_i errorCode _
    unfold failedStatus at hok
    split at hok <;> cases hok
  · rename_i statuses hcall
    have hall : ∀ status ∈ statuses, status = .ok := by
      intro status hstatus
      split at hok
      · rename_i bad hbad
        rw [convertNodeStatus_eq_kOk] at hok
        exact absurd hok (by simpa using find?_some hbad)
      · rename_i hnone
        simpa using find?_eq_none.mp hnone status hstatus
    rw [Brpc.eq_map_of_callMapped_eq_ok hcall, forall₂_map_right_iff] at houtcomes
    obtain ⟨hlength, hzip⟩ := forall₂_iff_zip.mp houtcomes
    intro r hr
    rw [← map_fst_zip hlength.le] at hr
    obtain ⟨⟨r, status⟩, hpair, rfl⟩ := mem_map.mp hr
    exact hall status (of_mem_zip hpair).2 ▸ hzip hpair status rfl

end Written

/-! ## What is read -/

section Read

variable {servers : Node → NodeServer} {env : Int32 → ReadEnv} {key : Bytes}

theorem mem_getRequests {node : Node} {request : GetRequest} :
    (node, request) ∈ getRequests info tableName keys ↔
      ∃ i, i < info.tableInfo.partitionNum ∧ info.tableInfo.getAllMasters[i]? = some node ∧
        keys.filter (slot info.tableInfo.partitionNum · = i) ≠ [] ∧
        request = ⟨requestHeader info tableName i,
          keys.filter (slot info.tableInfo.partitionNum · = i)⟩ := by
  rw [getRequests, mem_subRequests]
  refine exists_congr fun i => ?_
  constructor
  · rintro ⟨part, hi, hpart, hnode, hempty, rfl⟩
    rw [getElem?_splitArrayRquest (by omega), if_pos hi] at hpart
    cases hpart
    exact ⟨hi, hnode, by simpa using hempty, rfl⟩
  · rintro ⟨hi, hnode, hempty, rfl⟩
    refine ⟨_, hi, ?_, hnode, by simpa using hempty, rfl⟩
    rw [getElem?_splitArrayRquest (by omega), if_pos hi]

theorem collectValues_of_kOk {answers : List (GetRequest × GetResponse)}
    {keyValues result : UnorderedMap Bytes Bytes}
    (h : collectValues answers keyValues = (.kOk, result)) :
    (∀ x ∈ answers, x.2.status = .ok) ∧ result =
      (answers.flatMap fun x => x.1.keys.zip x.2.values).foldl
        (fun m e => m.assign e.1 e.2) keyValues := by
  induction answers generalizing keyValues with
  | nil =>
    cases h
    exact ⟨nofun, rfl⟩
  | cons x answers ih =>
    obtain ⟨request, response⟩ := x
    unfold collectValues at h
    split at h
    · rename_i hok
      obtain ⟨hall, rfl⟩ := ih h
      exact ⟨forall_mem_cons.mpr ⟨hok, hall⟩, by simp⟩
    · rename_i hbad
      exact absurd (convertNodeStatus_eq_kOk.mp (congrArg Prod.fst h)) hbad

theorem zip_map_append (f : Bytes → Bytes) (keys rest : List Bytes) :
    keys.zip (keys.map f ++ rest) = keys.map fun key => (key, f key) := by
  induction keys with
  | nil => rfl
  | cons key keys ih => simp [ih]

/-- What a key is read as: its value in the cache of its partition, or the empty string. -/
def readValue (info : RequestInfo) (tableName : Bytes) (env : Int32 → ReadEnv) (node : Node)
    (key : Bytes) (servers : Node → NodeServer) : Bytes :=
  let id := ofNat (slot info.tableInfo.partitionNum key)
  (((servers node).cache tableName id).find (env id).now key).getD []

/-- What a batch of reads that returns `kOk` collects: the keys of each request with what the cache
they were sent to has for them. -/
theorem collected_of_batchGet {keyValues result : UnorderedMap Bytes Bytes}
    (h : BatchGet info tableName keys servers env keyValues (.kOk, result)) :
    result = ((getRequests info tableName keys).flatMap fun r => r.2.keys.map fun key =>
      (key, (((servers r.1).cache r.2.tableName r.2.id).find (env r.2.id).now key).getD [])).foldl
        (fun m e => m.assign e.1 e.2) keyValues := by
  obtain ⟨outcomes, houtcomes, hresult⟩ := h
  unfold getResult at hresult
  split at hresult
  · have hfailed := congrArg Prod.fst hresult
    unfold failedStatus at hfailed
    split at hfailed <;> cases hfailed
  rename_i responses hcall
  rw [Brpc.eq_map_of_callMapped_eq_ok hcall, forall₂_map_right_iff] at houtcomes
  obtain ⟨hlength, hzip⟩ := forall₂_iff_zip.mp houtcomes
  obtain ⟨hok, rfl⟩ := collectValues_of_kOk hresult.symm
  refine congrArg (foldl _ keyValues) ?_
  rw [zip_map_left, flatMap_map]
  nth_rewrite 2 [← map_fst_zip hlength.le]
  rw [flatMap_map]
  refine flatMap_congr fun x hx => ?_
  obtain ⟨view, hresponse⟩ := hzip (a := x.1) (b := x.2) hx x.2 rfl
  have hstatus := hok (x.1.2, x.2) (by
    rw [zip_map_left]
    exact mem_map.mpr ⟨x, hx, rfl⟩)
  rw [hresponse] at hstatus
  obtain ⟨rest, hvalues⟩ := values_of_get_ok hstatus
  simp only [Prod.map, id]
  rw [hresponse, hvalues]
  exact zip_map_append _ _ _

/-- **What a batch of reads returns**: every key with its value, at the master of its partition. -/
theorem lookup_of_batchGet {keyValues result : UnorderedMap Bytes Bytes}
    (hpos : 0 < info.tableInfo.partitionNum)
    (h : BatchGet info tableName keys servers env keyValues (.kOk, result)) (hkey : key ∈ keys)
    {node : Node}
    (hnode : info.tableInfo.getAllMasters[slot info.tableInfo.partitionNum key]? = some node) :
    result.lookup key = some (readValue info tableName env node key servers) := by
  rw [collected_of_batchGet h]
  generalize hpairs : (getRequests info tableName keys).flatMap _ = pairs
  -- only the request of the key's partition has the key
  have honly : ∀ e ∈ pairs, e.1 = key → e.2 = readValue info tableName env node key servers := by
    intro e he heq
    rw [← hpairs] at he
    obtain ⟨⟨node', request⟩, hr, hmem⟩ := mem_flatMap.mp he
    obtain ⟨i, -, hnode', -, rfl⟩ := mem_getRequests.mp hr
    obtain ⟨key', hkey', rfl⟩ := mem_map.mp hmem
    obtain rfl : key' = key := heq
    obtain rfl : slot info.tableInfo.partitionNum key' = i := by simpa using (mem_filter.mp hkey').2
    obtain rfl := some.inj (hnode.symm.trans hnode')
    rfl
  have hfound : ∃ e ∈ pairs, e.1 = key := by
    rw [← hpairs]
    have hplace : key ∈ keys.filter (slot info.tableInfo.partitionNum · =
        slot info.tableInfo.partitionNum key) := mem_filter.mpr ⟨hkey, by simp⟩
    refine ⟨_, mem_flatMap.mpr ⟨(node, _), mem_getRequests.mpr ⟨_, slot_lt hpos key, hnode,
      ne_nil_of_mem hplace, rfl⟩, mem_map.mpr ⟨key, hplace, rfl⟩⟩, rfl⟩
  obtain ⟨e, he, heq, hlookup⟩ := UnorderedMap.lookup_foldl_assign_of_mem hfound
  rw [hlookup, honly e he heq]

end Read

/-! ## Reads after writes -/

theorem getPartition_eq (hids : info.tableInfo.Numbered) (hpos : 0 < info.tableInfo.partitionNum)
    (key : Bytes) : ∃ p, info.tableInfo.getPartition key = some p ∧
      info.tableInfo.routed (slot info.tableInfo.partitionNum key) = some p := by
  obtain ⟨p, hrouted, hid⟩ := hids.routed (slot_lt hpos key)
  have hne : info.tableInfo.partitions.entries ≠ [] := by
    rw [← length_pos_iff, hids.length_entries]
    exact hpos
  refine ⟨p, ?_, hrouted⟩
  rw [Common.Table.getPartition, if_neg hne, hids.length_entries]
  exact hid

/-- The three ways to place a key agree, and the splits hold every key as often as the request, in
its place alone. -/
theorem split_agrees (hids : info.tableInfo.Numbered) (hpos : 0 < info.tableInfo.partitionNum)
    (keys : List Bytes) (keyValues : UnorderedMap Bytes Bytes) (key : Bytes) :
    ∃ place p, place < info.tableInfo.partitionNum ∧
      info.tableInfo.getPartition key = some p ∧ info.tableInfo.routed place = some p ∧
      ∀ i < info.tableInfo.partitionNum, ∃ part keysPart,
        (splitSetRequst keyValues info.tableInfo.partitionNum)[i]? = some part ∧
        (splitArrayRquest keys info.tableInfo.partitionNum)[i]? = some keysPart ∧
        part.lookup key = (if i = place then keyValues.lookup key else none) ∧
        keysPart.count key = if i = place then keys.count key else 0 := by
  obtain ⟨p, hp, hrouted⟩ := getPartition_eq hids hpos key
  refine ⟨slot info.tableInfo.partitionNum key, p, slot_lt hpos key, hp, hrouted, fun i hi => ?_⟩
  obtain ⟨part, hpart, hlookup⟩ := getElem?_splitSetRequst keyValues hpos hi
  refine ⟨part, _, hpart, (getElem?_splitArrayRquest hpos i).trans (if_pos hi), ?_, ?_⟩
  · rw [hlookup]
    simp only [eq_comm]
  · by_cases hplace : i = slot info.tableInfo.partitionNum key
    · rw [if_pos hplace, count_filter (by simp [hplace])]
    · rw [if_neg hplace, count_eq_zero]
      intro hmem
      have hslot : slot info.tableInfo.partitionNum key = i := by simpa using (mem_filter.mp hmem).2
      exact hplace hslot.symm

/-- **Reads find what was written.** After a batch of writes that returned `kOk`, a batch of reads
that returns `kOk` has every key it asked for: with the value that was written, or else with what
its partition held before. -/
theorem batchGet_of_batchSet {servers : Node → NodeServer} {deliveries : List Delivery}
    {env : Int32 → ReadEnv} {init result : UnorderedMap Bytes Bytes}
    (hids : info.tableInfo.Numbered) (hpos : 0 < info.tableInfo.partitionNum)
    (hn : info.tableInfo.partitionNum < 2 ^ 31)
    (hset : BatchSet info tableName keyValues ttl servers deliveries .kOk)
    (hget : BatchGet info tableName keys (deliveries.foldl deliver servers) env init (.kOk, result))
    (hexpiry : ∀ d ∈ deliveries, ∀ id,
      ¬ ValueInfo.Gone (env id).now ⟨[], if 0 < ttl then d.env.now + ttl else 0⟩) :
    ∀ key, ∃ place p, place < info.tableInfo.partitionNum ∧
      info.tableInfo.getPartition key = some p ∧ info.tableInfo.routed place = some p ∧
      (∀ i < info.tableInfo.partitionNum, ∃ part keysPart,
        (splitSetRequst keyValues info.tableInfo.partitionNum)[i]? = some part ∧
        (splitArrayRquest keys info.tableInfo.partitionNum)[i]? = some keysPart ∧
        part.lookup key = (if i = place then keyValues.lookup key else none) ∧
        keysPart.count key = if i = place then keys.count key else 0) ∧
      (key ∈ keys → result.lookup key = some ((keyValues.lookup key).getD
        (readValue info tableName env p.master key servers))) := by
  intro key
  obtain ⟨place, p, hplace, hp, hrouted, hsplit⟩ := split_agrees hids hpos keys keyValues key
  refine ⟨place, p, hplace, hp, hrouted, hsplit, fun hkey => ?_⟩
  have hnode : info.tableInfo.getAllMasters[slot info.tableInfo.partitionNum key]? =
      some p.master := by
    obtain ⟨p', hp', hrouted'⟩ := getPartition_eq hids hpos key
    obtain rfl := some.inj (hp.symm.trans hp')
    rw [Common.Table.getAllMasters_getElem?, hrouted']
    rfl
  rw [lookup_of_batchGet hpos hget hkey hnode]
  obtain ⟨hrequests, outcomes, houtcomes, hok⟩ := hset
  refine congrArg some ?_
  cases hvalue : keyValues.lookup key with
  | none =>
    have hkept : entry info tableName p.master key (deliveries.foldl deliver servers) =
        entry info tableName p.master key servers := entry_foldl_of_none hn hrequests hvalue
    unfold entry at hkept
    simp only [readValue, Cache.find, hkept, getD_none]
  | some value =>
    have hentry : ∃ expired, entry info tableName p.master key (deliveries.foldl deliver servers) =
        some ⟨value, expired⟩ ∧ ∀ id, ¬ ValueInfo.Gone (env id).now ⟨[], expired⟩ := by
      obtain ⟨request, hmem, hid⟩ : ∃ request, (p.master, request) ∈
          setRequests info tableName keyValues ttl ∧
          request.id = .ofNat (slot info.tableInfo.partitionNum key) :=
        mem_setRequests hpos hnode hvalue
      obtain ⟨before, wenv, after, rfl, hanswer⟩ := answered_of_setStatus houtcomes hok.symm _ hmem
      obtain ⟨-, hrequests⟩ := forall_mem_append.mp hrequests
      obtain ⟨-, hexpiry⟩ := forall_mem_append.mp hexpiry
      obtain ⟨hthis, hexpiry⟩ := forall_mem_cons.mp hexpiry
      rw [foldl_append, foldl_cons]
      exact entry_foldl_of_some hn (forall_mem_cons.mp hrequests).2 hexpiry hvalue
        ⟨_, entry_deliver_of_ok hn hmem hid hvalue hanswer, hthis⟩
    obtain ⟨expired, hfound, hlive⟩ := hentry
    unfold entry at hfound
    simp only [readValue, Cache.find, hfound, bind_some, getD_some]
    rw [if_neg (show ¬ ValueInfo.Gone _ ⟨value, expired⟩ from hlive _)]
    rfl

end Cluster

namespace Sample

/-- A table of two partitions on two nodes. -/
def halves : Table := ⟨[97], [⟨0, .active, some (node 1), []⟩, ⟨1, .active, some (node 2), []⟩], 1,
  1024, 1⟩

def halvesInfo : RequestInfo := ⟨⟨1, 1⟩, .ofMessage halves⟩

def halvesView : Common.MetaInfo :=
  (updateMetaInfo { version := ⟨1, 1⟩, info := [halves] } .empty).1

/-- Two servers that know the table, without any data. -/
def halvesServers (n : Node) : NodeServer := ⟨n, halvesView, ∅, ∅⟩

def halvesEnv : ReadEnv := ⟨⟨1, none, fun _ => .failed 0, none⟩, []⟩

/-- Each request is executed where it was sent. -/
def halvesDeliveries : List Delivery :=
  (setRequests halvesInfo [97] (.singleton [1] [2]) 0).map fun r =>
    ⟨r.1, halvesEnv.toWriteEnv, r.2⟩

def halvesOutcomes : List (Brpc.SubCall GetResponse) :=
  (getRequests halvesInfo [97] [[1], [2], [1]]).map fun r =>
    .replied (get halvesEnv r.2 (halvesDeliveries.foldl Cluster.deliver halvesServers r.1)).1

end Sample

open Sample

theorem batchGet_of_batchSet_halves : ∃ result, BatchGet Sample.halvesInfo [97] [[1], [2], [1]]
      (Sample.halvesDeliveries.foldl Cluster.deliver Sample.halvesServers)
      (fun _ => Sample.halvesEnv) ∅ (.kOk, result) ∧ result.lookup [1] = some [2] := by
  have hset : BatchSet halvesInfo [97] (.singleton [1] [2]) 0
      halvesServers halvesDeliveries .kOk := by
    refine ⟨fun d hd => ?_, [.replied .ok], ?_, rfl⟩
    · obtain ⟨r, hr, rfl⟩ := mem_map.mp hd
      exact ⟨r.1, hr⟩
    · refine .cons ?_ .nil
      rintro status ⟨⟩
      exact ⟨[], halvesEnv.toWriteEnv, [], rfl, rfl⟩
  have hget : BatchGet halvesInfo [97] [[1], [2], [1]]
      (halvesDeliveries.foldl Cluster.deliver halvesServers)
      (fun _ => halvesEnv) ∅ (getResult ((getRequests halvesInfo [97]
        [[1], [2], [1]]).map (·.2)) halvesOutcomes ∅) := by
    refine ⟨halvesOutcomes, ?_, rfl⟩
    rw [halvesOutcomes, forall₂_map_right_iff, forall₂_same]
    rintro r - response ⟨⟩
    exact ⟨(halvesDeliveries.foldl Cluster.deliver halvesServers r.1).metaInfo, rfl⟩
  have hexpiry : ∀ d ∈ halvesDeliveries, ∀ _ : Int32, ¬ ValueInfo.Gone halvesEnv.now
        ⟨[], if (0 : Int32) < 0 then d.env.now + 0 else 0⟩ :=
    fun d _ _ hgone => hgone.1 rfl
  obtain ⟨place, p, -, -, -, -, hread⟩ := batchGet_of_batchSet (by decide) (by decide)
    (by decide) hset hget hexpiry [1]
  exact ⟨_, hget, hread (by decide)⟩

end Noah
