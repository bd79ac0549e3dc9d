import Nori.Noah.Agreement
import Nori.Noah.Client.Batch

/-!
# Divisors

Keys are routed and caches are sized by dividing by the number of nodes or of partitions. Here every
division is one that stops the process when the divisor is zero, and the functions that divide are
run that way, one request after the other, on views that are as old as they happen to be.

The number of nodes is never zero where it divides: the meta server only places a node again that it
knows, and a node server that knows no node does not create a table. The number of partitions is
what a `CreateTable` request asks for, and no function on its way to the views asks whether there
are any. A table without partitions stops the client that routes a key by it, and a node that is
sent some of its data.
-/

namespace Noah

open Butil Container Transition List Option

/-- How a call can fail to return. -/
inductive Fault
  | zeroDivisor
  | undefined
deriving DecidableEq

namespace Checked

def mod (a b : ℕ) : Except Fault ℕ := if b = 0 then .error .zeroDivisor else .ok (a % b)

def div (a b : ℤ) : Except Fault ℤ := if b = 0 then .error .zeroDivisor else .ok (a.tdiv b)

theorem mod_of_ne_zero {a b : ℕ} (h : b ≠ 0) : mod a b = .ok (a % b) := if_neg h

section Loops

variable {ε α β : Type}

theorem foldlM_eq_ok {f : β → α → Except ε β} {g : β → α → β} {xs : List α}
    (h : ∀ b a, f b a = .ok (g b a)) (b : β) : xs.foldlM f b = .ok (xs.foldl g b) := by
  obtain rfl : f = fun b a => pure (g b a) := funext₂ h
  exact foldlM_pure

theorem mapM_eq_ok {f : α → Except ε β} {g : α → β} {xs : List α}
    (h : ∀ a, f a = .ok (g a)) : xs.mapM f = .ok (xs.map g) := by
  obtain rfl : f = fun a => pure (g a) := funext h
  exact mapM_pure

end Loops

/-! ## The client -/

def splitArrayRquest (keys : List Bytes) (partitionNum : ℕ) : Except Fault (List (List Bytes)) :=
  if partitionNum = 1 then .ok [keys]
  else keys.foldlM (fun split key => do
    let i ← mod (Butil.hash key).toNat partitionNum
    return split.modify i (· ++ [key])) (replicate partitionNum [])

def splitSetRequst (keyValues : UnorderedMap Bytes Bytes) (partitionNum : ℕ) :
    Except Fault (List (UnorderedMap Bytes Bytes)) :=
  if partitionNum = 1 then .ok [keyValues]
  else keyValues.entries.foldlM (fun split e => do
    let i ← mod (Butil.hash e.1).toNat partitionNum
    return split.modify i (·.assign e.1 e.2)) (replicate partitionNum ∅)

def getPartition (t : Common.Table) (key : Bytes) : Except Fault (Option Common.Partition) :=
  if t.partitions.entries = [] then .ok none
  else do
    let parNum ← mod (Butil.hash key).toNat t.partitions.entries.length
    return t.getPartitionById parNum

theorem splitArrayRquest_eq {partitionNum : ℕ} (h : partitionNum ≠ 0) (keys : List Bytes) :
    splitArrayRquest keys partitionNum = .ok (Cluster.splitArrayRquest keys partitionNum) := by
  unfold splitArrayRquest Cluster.splitArrayRquest
  split
  · rfl
  · exact foldlM_eq_ok (fun split key => by rw [mod_of_ne_zero h]; rfl) _

theorem splitSetRequst_eq {partitionNum : ℕ} (h : partitionNum ≠ 0)
    (keyValues : UnorderedMap Bytes Bytes) :
    splitSetRequst keyValues partitionNum =
      .ok (Cluster.splitSetRequst keyValues partitionNum) := by
  unfold splitSetRequst Cluster.splitSetRequst
  split
  · rfl
  · exact foldlM_eq_ok (fun split e => by rw [mod_of_ne_zero h]; rfl) _

theorem getPartition_eq (t : Common.Table) (key : Bytes) :
    getPartition t key = .ok (t.getPartition key) := by
  unfold getPartition Common.Table.getPartition
  split
  · rfl
  · rename_i hne
    rw [mod_of_ne_zero (by simpa using hne)]
    rfl

/-! ## Placing replicas -/

def buildPartition (nodes : List Node) (start duplicateNum i : ℕ) : Except Fault Partition :=
  (range duplicateNum).foldlM (fun p j => do
    let nodeId ← mod (start + i + j) nodes.length
    return if j = 0 then { p with master := some (nodes.getD nodeId default) }
      else { p with slaves := p.slaves ++ [nodes.getD nodeId default] }) ⟨i, .active, none, []⟩

def buildTable (nodes : List Node) (info : TableInfo) : Except Fault Table := do
  let start ← mod (Butil.hash info.tableName).toNat nodes.length
  let partitions ← (range info.partitionNum.toNat).mapM
    (buildPartition nodes start info.duplicateNum.toNat)
  return ⟨info.tableName, partitions, info.duplicateNum, info.capacity, 0⟩

theorem buildTable_eq {nodes : List Node} (h : nodes ≠ []) (info : TableInfo) :
    buildTable nodes info = .ok (Noah.buildTable nodes info) := by
  have hlength : nodes.length ≠ 0 := by simpa using h
  have hpartition : ∀ start d i,
      buildPartition nodes start d i = .ok (Noah.buildPartition nodes start d i) := by
    intro start d i
    exact foldlM_eq_ok (fun p j => by rw [mod_of_ne_zero hlength]; rfl) _
  have hpartitions : ∀ start, (range info.partitionNum.toNat).mapM
      (buildPartition nodes start info.duplicateNum.toNat) =
      .ok ((range info.partitionNum.toNat).map
        (Noah.buildPartition nodes start info.duplicateNum.toNat)) :=
    fun start => mapM_eq_ok (hpartition start _)
  simp only [buildTable, mod_of_ne_zero hlength, bind, Except.bind, hpartitions]
  rfl

/-- The places `UpdatePartNodeMS` tries for the partitions of a table. -/
def failbackPlaces (size : ℕ) (tableName : Bytes) (table : Table) :
    Except Fault (List (List ℕ)) := do
  let start ← mod (Butil.hash tableName).toNat size
  table.partitions.zipIdx.mapM fun p =>
    if p.1.status = .active then .ok []
    else (range (sizeT table.duplicateNum)).mapM fun j => mod (start + p.2 + j) size

/-- `UpdatePartNodeMS`: what it writes has no part in where it looks. -/
def updatePartNodeMS (node : Node) (s : MetaInfo) : Except Fault MetaInfo := do
  let _ ← s.tableInfo.entries.mapM fun e => failbackPlaces (nodeArray s.nodes).length e.1 e.2
  return s.updatePartNodeMS node

def updateNode (env : Env) (node : Node) (s : MetaInfo) : Except Fault (VersionInfo × MetaInfo) :=
  match s.nodes.lookup (node2String node) with
  | some info =>
    if info.lastAliveTime = 0 then do
      let s ← updatePartNodeMS node (s.stamp env.clock node)
      return (s.bumpEpoch.version, s.bumpEpoch)
    else .ok ((s.stamp env.clock node).version, s.stamp env.clock node)
  | none => .ok ((s.register env node).bumpEpoch.version, (s.register env node).bumpEpoch)

theorem updatePartNodeMS_eq {s : MetaInfo} (h : (nodeArray s.nodes).length ≠ 0) (node : Node) :
    updatePartNodeMS node s = .ok (s.updatePartNodeMS node) := by
  have hplaces : ∀ e : Σ _ : Bytes, Table, ∃ places,
      failbackPlaces (nodeArray s.nodes).length e.1 e.2 = .ok places := by
    intro e
    unfold failbackPlaces
    rw [mod_of_ne_zero h]
    refine ⟨_, mapM_eq_ok (g := fun p => if p.1.status = .active then [] else
      (range (sizeT e.2.duplicateNum)).map fun j =>
        ((Butil.hash e.1).toNat % (nodeArray s.nodes).length + p.2 + j) %
          (nodeArray s.nodes).length) fun p => ?_⟩
    split
    · rfl
    · exact mapM_eq_ok fun j => mod_of_ne_zero h
  choose places hplaces using hplaces
  unfold updatePartNodeMS
  rw [mapM_eq_ok hplaces]
  rfl

theorem updateNode_eq (env : Env) (node : Node) (s : MetaInfo) :
    updateNode env node s = .ok (s.updateNode env node) := by
  unfold updateNode MetaInfo.updateNode
  cases hknown : s.nodes.lookup (node2String node) with
  | none => rfl
  | some info =>
    simp only
    split
    · have hmem := UnorderedMap.mem_entries_of_lookup hknown
      rw [updatePartNodeMS_eq]
      · rfl
      · rw [MetaInfo.nodeArray_stamp, nodeArray, length_map]
        exact fun hzero => ne_nil_of_mem hmem (length_eq_zero_iff.mp hzero)
    · rfl

end Checked

open Checked

/-! ## The node server -/

structure CreateTableRequest where
  epoch : ℤ
  version : ℤ
  tableName : Bytes
  paritionNum : ℤ
  duplicateNum : ℤ
  capacity : ℤ

/-- `CheckEpoch` without a partition to fill: nothing but the epoch is looked at. -/
def NodeServer.checkEpochOnly (env : WriteEnv) (header : WriteHeader) (server : NodeServer) :
    Bool × NodeServer :=
  let check (view : Common.MetaInfo) : Bool × NodeServer :=
    (decide (view.version.epoch = header.epoch), { server with metaInfo := view })
  if server.metaInfo.version.epoch < header.epoch ∨
      server.metaInfo.version.version < header.version then
    match env.update with
    | some view => check view
    | none => (false, server)
  else check server.metaInfo

namespace Checked

/-- `CreateTable` up to the request it sends, if it sends one. A request that is newer than the view
is checked again after a pull. -/
def createTable (request : CreateTableRequest) (view : Common.MetaInfo) :
    Except Fault (Option Table) :=
  let check := NodeServer.checkEpoch request.epoch request.version request.tableName 0 view
  if view.version.epoch < request.epoch ∨ view.version.version < request.version then .ok none
  else if check.1 = false then .ok none
  else if (check.2.getD .unknown).id = 0 then .ok none
  else if view.nodes = [] then .ok none
  else do
    let table ← buildTable (view.nodes.map (·.node)) ⟨request.tableName, request.paritionNum,
      clampDuplicateNum view.nodes.length request.duplicateNum, request.capacity⟩
    return some table

/-- No division of `CreateTable` fails, and a table it asks for has the partitions of the
request. -/
theorem createTable_spec (request : CreateTableRequest) (view : Common.MetaInfo) :
    ∃ table?, createTable request view = .ok table? ∧ ∀ table ∈ table?,
      0 < request.paritionNum → table.partitions ≠ [] := by
  unfold createTable
  simp only
  split
  · exact ⟨none, rfl, by simp⟩
  split
  · exact ⟨none, rfl, by simp⟩
  split
  · exact ⟨none, rfl, by simp⟩
  split
  · exact ⟨none, rfl, by simp⟩
  · rename_i hnodes
    rw [buildTable_eq (by simpa using hnodes)]
    refine ⟨_, rfl, fun table htable hpos => ?_⟩
    cases htable
    simpa [Noah.buildTable] using hpos

/-- `GetCache`: a new cache reserves its share of the capacity. -/
def getCache (tableName : Bytes) (id : Int32) (create : Bool) (server : NodeServer) :
    Except Fault NodeServer :=
  if (server.caches.lookup (tableInfoString tableName id)).isSome ∨ create = false then .ok server
  else
    let created : NodeServer :=
      { server with caches := server.caches.assign (tableInfoString tableName id) .empty }
    match server.metaInfo.tableInfo.lookup tableName with
    | some table => do
      let _ ← div table.capacity table.partitionNum
      return created
    | none => .ok created

def set (env : WriteEnv) (request : SetRequest) (server : NodeServer) :
    Except Fault (NodeServer.Status × NodeServer) :=
  match server.fill env request.toWriteHeader with
  | (none, server) => .ok (.eepoch, server)
  | (some p, server) =>
    if p.id = -1 then .ok (.notFound, server)
    else if Common.State.kSlowDown.rank ≤ p.state.rank then .ok (.notActive, server)
    else if server.forwarded env request.toWriteHeader p = false then .ok (.error, server)
    else do
      let server ← getCache request.tableName request.id true server
      return (if env.ldb = some false then .error else .ok, { server with
          caches := server.caches.assign (tableInfoString request.tableName request.id)
            ((server.cache request.tableName request.id).set env.now request.keyValues
              request.expired) })

def migrate (env : WriteEnv) (request : MigrateRequest) (server : NodeServer) :
    Except Fault (NodeServer.Status × NodeServer) :=
  match server.checkEpochOnly env request.toWriteHeader with
  | (false, server) => .ok (.eepoch, server)
  | (true, server) => do
    let server ← getCache request.tableName request.id true server
    return (.ok, { server with
      caches := server.caches.assign (tableInfoString request.tableName request.id)
        ((server.cache request.tableName request.id).migrate request.keyValues request.expired) })

end Checked

/-- The requests a node server answers from its caches. -/
inductive NodeRequest
  | set (request : SetRequest)
  | get (request : GetRequest)
  | del (request : DelRequest)
  | list (request : ListRequest)
  | migrate (request : MigrateRequest)

/-- Only `Set` and `Migrate` make a cache. -/
def NodeRequest.serve (env : ReadEnv) (server : NodeServer) : NodeRequest → Except Fault NodeServer
  | .set request => (Checked.set env.toWriteEnv request server).map Prod.snd
  | .migrate request => (Checked.migrate env.toWriteEnv request server).map Prod.snd
  | .get request => do
    let server ← getCache request.tableName request.id false server
    return (server.get env request).2
  | .del request => do
    let server ← getCache request.tableName request.id false server
    return (server.del env.toWriteEnv request).2
  | .list request => do
    let server ← getCache request.tableName request.id false server
    return (server.list env request).2

/-! ## The service -/

/-- The leader with the views of nodes and clients, and the caches of the nodes. -/
structure Service (κ : Type) where
  deployment : Deployment κ
  caches : Node → UnorderedMap Bytes Cache

namespace Service

variable {κ : Type} [DecidableEq κ]

/-- A command reaches the leader, a node is asked to create a table, an answer of the leader
arrives, a node starts again, a node serves a request, a client routes keys. -/
inductive Action (κ : Type)
  | apply (party : Party κ) (env : Env) (request : MetaCmdRequest)
  | createTable (node : Node) (env : Env) (request : CreateTableRequest)
  | deliver (i : ℕ)
  | restart (node : Node)
  | serve (node : Node) (migratingInfo : OrderedMap Bytes (OrderedSet Node)) (env : ReadEnv)
    (request : NodeRequest)
  | set (client : κ) (tableName : Bytes) (keyValues : UnorderedMap Bytes Bytes)
  | lookUp (client : κ) (tableName : Bytes) (keys : List Bytes)
  | getPartition (party : Party κ) (tableName : Bytes) (key : Bytes)

/-- The leader deals with a request. -/
def command (c : Service κ) (party : Party κ) (env : Env) (request : MetaCmdRequest) :
    Except Fault (Service κ) :=
  match c.deployment.act (.apply party env request) with
  | some deployment => .ok { c with deployment := deployment }
  | none => .error .undefined

def act (c : Service κ) : Action κ → Except Fault (Service κ)
  | .apply party env request =>
    match request.cmd with
    -- node servers send the only creations
    | .init _ => .ok c
    | .ping node => do
      let _ ← updateNode env node c.deployment.server.metaInfo
      c.command party env request
    | _ => c.command party env request
  | .createTable node env request => do
    match ← createTable request (c.deployment.views (.node node)) with
    | none => return c
    | some table =>
      c.command (.node node) env ⟨(c.deployment.views (.node node)).version, .init table⟩
  | .deliver i => .ok { c with deployment := (c.deployment.act (.deliver i)).getD c.deployment }
  | .restart node => .ok {
      deployment := { c.deployment with
        views := Function.update c.deployment.views (.node node) .empty }
      caches := Function.update c.caches node ∅ }
  | .serve node migratingInfo env request => do
    -- a pull that `CheckEpoch` starts is a step of its own
    let server ← request.serve { env with update := none }
      ⟨node, c.deployment.views (.node node), migratingInfo, c.caches node⟩
    return { c with caches := Function.update c.caches node server.caches }
  | .set client tableName keyValues =>
    match Cluster.findTable tableName (c.deployment.views (.client client)) with
    | none => .ok c
    | some info => do
      let _ ← splitSetRequst keyValues info.tableInfo.partitionNum
      return c
  | .lookUp client tableName keys =>
    match Cluster.findTable tableName (c.deployment.views (.client client)) with
    | none => .ok c
    | some info => do
      let _ ← splitArrayRquest keys info.tableInfo.partitionNum
      return c
  | .getPartition party tableName key =>
    match (c.deployment.views party).tableInfo.lookup tableName with
    | none => .ok c
    | some table => do
      let _ ← getPartition table key
      return c

def start : Service κ := ⟨.start, fun _ => ∅⟩

/-- The tables that are created have a partition. -/
def Sized (_ : Service κ) : Action κ → Prop
  | .createTable _ _ request => 0 < request.paritionNum
  | _ => True

end Service

open Service

def service (κ : Type) [DecidableEq κ] : System (Service κ) (Action κ) :=
  .ofStep start fun c a => (c.act a).toOption

/-! ## Tables with partitions -/

/-- Every table of a state has a partition. -/
def MetaInfo.Sized (s : MetaInfo) : Prop :=
  ∀ name table, s.tableInfo.lookup name = some table → table.partitions ≠ []

/-- Every table of a view has a partition. -/
def Common.MetaInfo.Sized (view : Common.MetaInfo) : Prop :=
  ∀ name table, view.tableInfo.lookup name = some table → table.partitionNum ≠ 0

/-- The states of a leader that is only asked for tables with partitions. -/
def stocked : Set MetaInfo := {s | s.Tidy ∧ s.Sized}

theorem MetaInfo.Sized.effect {s s' : MetaInfo} {env : Env} {op : Op}
    (hop : ∀ info table, op = .createTable info table → table.partitions ≠ [])
    (heffect : Effect env s op s') (h : s.Sized) : s'.Sized := by
  intro name table' htable' hnone
  have hids : table'.ids = [] := by simp [Table.ids, hnone]
  rcases heffect.ids htable' with ⟨info, created, hcreated, heq⟩ | ⟨table, htable, heq⟩
  · exact hop info created hcreated (by simpa [Table.ids] using heq.symm.trans hids)
  · exact h name table htable (by simpa [Table.ids] using heq.symm.trans hids)

/-- A command that asks for no table without partitions. -/
def MetaCmd.Sized : MetaCmd → Prop
  | .init table => table.partitions ≠ []
  | _ => True

theorem MetaServer.mem_stocked_of_apply {env : Env} {request : MetaCmdRequest} {s s' : MetaServer}
    {response : MetaCmdResponse} (hnumbered : request.cmd.Numbered) (hsized : request.cmd.Sized)
    (happly : s.apply env request = some (response, s')) (h : s.metaInfo ∈ stocked) :
    s'.metaInfo ∈ stocked := by
  refine ⟨h.1.apply hnumbered happly, ?_⟩
  rcases effect_of_apply happly with heq | ⟨op, hop, heffect⟩
  · exact heq ▸ h.2
  · refine h.2.effect ?_ heffect
    rintro info table rfl
    obtain ⟨version, cmd⟩ := request
    cases cmd with
    | init created =>
      cases hop
      exact hsized
    | ping _ | dropTable _ | downNodes _ | migrate _ | pull _ _ _ | listTable | listNode
    | unsupported => cases hop

theorem Reply.lookup_install {κ : Type} {reply : Reply κ} {view : Common.MetaInfo} {name : Bytes}
    {table : Common.Table} (h : (reply.install view).tableInfo.lookup name = some table) :
    (reply.response.status = .ok ∧ ∃ t ∈ reply.tables, table = .ofMessage t) ∨
      view.tableInfo.lookup name = some table := by
  by_cases hok : reply.response.status = .ok
  · have hpulled : ∀ node names all, reply.request.cmd = .pull node names all →
        (Cluster.updateTableInfo reply.response).tableInfo.lookup name = some table →
        ∃ t ∈ reply.tables, table = .ofMessage t := by
      intro node names all hcmd htable
      obtain ⟨t, ht, -, rfl⟩ := Cluster.lookup_updateTableInfo htable
      exact ⟨t, by rwa [Reply.tables, hcmd], rfl⟩
    unfold Reply.install at h
    rw [if_neg (not_not.mpr hok)] at h
    split at h
    · rename_i hcmd
      exact .inl ⟨hok, hpulled _ _ _ hcmd h⟩
    · rw [Cluster.lookup_dropTable] at h
      split at h
      · cases h
      · exact .inr h
    · rename_i hcmd
      rw [NodeServer.updateMetaInfo_fst] at h
      exact .inl ⟨hok, hpulled _ _ _ hcmd h⟩
    · rename_i created _ hcmd
      rw [NodeServer.installCreated, UnorderedMap.lookup_assign] at h
      split at h
      · cases h
        exact .inl ⟨hok, _, by rw [Reply.tables, hcmd]; exact mem_cons_self, rfl⟩
      · exact .inr h
    · exact .inr h
  · rw [Reply.install, if_pos hok] at h
    exact .inr h

theorem Common.MetaInfo.Sized.install {κ : Type} {reply : Reply κ} {view : Common.MetaInfo}
    (hreply : reply.Recorded stocked) (h : view.Sized) : (reply.install view).Sized := by
  intro name table htable
  rcases Reply.lookup_install htable with ⟨hok, t, ht, rfl⟩ | hold
  · obtain ⟨s, hs, -, hlookup⟩ := hreply hok t ht
    have hne := hs.2 t.name t hlookup
    simpa [Common.Table.ofMessage] using hne
  · exact h name table hold

namespace Service

variable {κ : Type}

/-- Nobody has, and nothing under way holds, a table without partitions. -/
structure Stocked (c : Service κ) : Prop where
  server : c.deployment.server.Recorded stocked
  replies : ∀ reply ∈ c.deployment.replies, reply.Recorded stocked
  views : ∀ party, (c.deployment.views party).Sized

theorem Stocked.start : (start : Service κ).Stocked where
  server := by
    refine ⟨⟨?_, ?_⟩, fun _ hsnapshot => by cases hsnapshot⟩
    · constructor <;> intro name table htable <;>
        simp [Service.start, Deployment.start, MetaServer.start, MetaInfo.start] at htable
    · intro name table htable
      simp [Service.start, Deployment.start, MetaServer.start, MetaInfo.start] at htable
  replies _ hreply := by cases hreply
  views _ name table htable := by
    simp [Service.start, Deployment.start, Common.MetaInfo.empty] at htable

variable [DecidableEq κ] {c c' : Service κ}

/-- Whatever reaches the leader, except a creation, is a command: a node that pings divides by a
number that is not zero. -/
theorem act_apply (c : Service κ) (party : Party κ) (env : Env) (request : MetaCmdRequest) :
    c.act (.apply party env request) = .ok c ∨
      c.act (.apply party env request) = c.command party env request ∧ request.cmd.Sized := by
  obtain ⟨version, cmd⟩ := request
  cases cmd with
  | init table => exact .inl rfl
  | ping node =>
    simp only [act, updateNode_eq]
    exact .inr ⟨rfl, trivial⟩
  | pull _ _ _ | listTable | listNode | dropTable _ | downNodes _ | migrate _ | unsupported =>
    exact .inr ⟨by simp only [act], trivial⟩

theorem Stocked.deploy {a : Deployment.Action κ} {deployment : Deployment κ} (h : c.Stocked)
    (ha : ∀ party env request, a = .apply party env request → request.cmd.Sized)
    (hact : c.deployment.act a = some deployment) (caches : Node → UnorderedMap Bytes Cache) :
    Stocked ⟨deployment, caches⟩ := by
  cases a with
  | apply party env request =>
    simp only [Deployment.act] at hact
    split_ifs at hact with hnumbered
    obtain ⟨⟨response, server⟩, happly, rfl⟩ := map_eq_some_iff.mp hact
    -- the new state is one of those that are on record already
    have hmem : server.metaInfo ∈ stocked :=
      MetaServer.mem_stocked_of_apply hnumbered (ha party env request rfl) happly h.server.current
    have hinsert : insert server.metaInfo stocked = stocked := Set.insert_eq_of_mem hmem
    refine ⟨hinsert ▸ h.server.apply happly,
      forall_mem_append.mpr ⟨h.replies, forall_mem_singleton.mpr ?_⟩, h.views⟩
    rw [← hinsert]
    exact Reply.recorded_of_apply (fun t ht => ht.1) happly h.server
  | deliver i =>
    obtain ⟨reply, hreply, rfl⟩ := map_eq_some_iff.mp hact
    refine ⟨h.server, fun other hother => h.replies other (mem_of_mem_eraseIdx hother), ?_⟩
    exact (Function.forall_update_iff _ fun _ (view : Common.MetaInfo) => view.Sized).mpr
      ⟨(h.views reply.party).install (h.replies reply (mem_of_getElem? hreply)),
        fun party _ => h.views party⟩

theorem Stocked.command {party : Party κ} {env : Env} {request : MetaCmdRequest} (h : c.Stocked)
    (hc : c.command party env request = .ok c') (hsized : request.cmd.Sized) : c'.Stocked := by
  unfold Service.command at hc
  split at hc
  · rename_i deployment hact
    cases hc
    exact h.deploy (fun _ _ _ ha => by cases ha; exact hsized) hact c.caches
  · cases hc

theorem Stocked.step {a : Action κ} (hsized : c.Sized a) (hact : c.act a = .ok c')
    (h : c.Stocked) : c'.Stocked := by
  cases a with
  | apply party env request =>
    rcases act_apply c party env request with hkept | ⟨hcommand, hsized⟩
    · cases hkept.symm.trans hact
      exact h
    · exact h.command (hcommand.symm.trans hact) hsized
  | createTable node env request =>
    obtain ⟨table?, htable, hne⟩ := createTable_spec request (c.deployment.views (.node node))
    simp only [act, htable] at hact
    cases table? with
    | none =>
      cases hact
      exact h
    | some table => exact h.command hact (hne table rfl hsized)
  | deliver i =>
    cases hact
    cases hdeliver : c.deployment.act (.deliver i) with
    | none => exact { h with }
    | some deployment => exact h.deploy (fun _ _ _ ha => by cases ha) hdeliver c.caches
  | restart node =>
    cases hact
    refine ⟨h.server, h.replies,
      (Function.forall_update_iff _ fun _ (view : Common.MetaInfo) => view.Sized).mpr
        ⟨fun name table htable => ?_, fun party _ => h.views party⟩⟩
    simp [Common.MetaInfo.empty] at htable
  | serve node migratingInfo env request =>
    simp only [act, bind, Except.bind] at hact
    split at hact
    · cases hact
    · cases hact
      exact { h with }
  | set client tableName keyValues | lookUp client tableName keys
  | getPartition party tableName key =>
    obtain rfl : c' = c := by
      simp only [act, bind, Except.bind] at hact
      split at hact
      · exact (Except.ok.inj hact).symm
      · split at hact
        · cases hact
        · exact (Except.ok.inj hact).symm
    exact h

end Service

/-! ## No zero divisor -/

namespace Checked

variable {server : NodeServer}

theorem getCache_of_sized (tableName : Bytes) (id : Int32) (create : Bool)
    (h : server.metaInfo.Sized) : ∃ server', getCache tableName id create server = .ok server' := by
  unfold getCache
  split
  · exact ⟨_, rfl⟩
  · simp only
    split
    · rename_i table htable
      rw [div, if_neg (by simpa using h tableName table htable)]
      exact ⟨_, rfl⟩
    · exact ⟨_, rfl⟩

theorem fill_of_no_update {env : WriteEnv} (h : env.update = none) (header : WriteHeader) :
    (server.fill env header).2 = server := by
  unfold NodeServer.fill
  simp only [h]
  split <;> rfl

theorem set_of_sized {env : WriteEnv} (henv : env.update = none) (request : SetRequest)
    (h : server.metaInfo.Sized) : ∃ r, set env request server = .ok r := by
  have hserver : (server.fill env request.toWriteHeader).2 = server :=
    fill_of_no_update henv request.toWriteHeader
  unfold set
  split
  · exact ⟨_, rfl⟩
  · rename_i p server' hfill
    obtain rfl : server' = server := by rw [← hserver, hfill]
    split
    · exact ⟨_, rfl⟩
    split
    · exact ⟨_, rfl⟩
    split
    · exact ⟨_, rfl⟩
    · obtain ⟨server'', hcache⟩ := getCache_of_sized request.tableName request.id true h
      rw [hcache]
      exact ⟨_, rfl⟩

theorem migrate_of_sized {env : WriteEnv} (henv : env.update = none) (request : MigrateRequest)
    (h : server.metaInfo.Sized) : ∃ r, migrate env request server = .ok r := by
  have hserver : (server.checkEpochOnly env request.toWriteHeader).2 = server := by
    unfold NodeServer.checkEpochOnly
    simp only [henv]
    split <;> rfl
  unfold migrate
  split
  · exact ⟨_, rfl⟩
  · rename_i server' hcheck
    obtain rfl : server' = server := by rw [← hserver, hcheck]
    obtain ⟨server'', hcache⟩ := getCache_of_sized request.tableName request.id true h
    rw [hcache]
    exact ⟨_, rfl⟩

end Checked

theorem NodeRequest.serve_of_sized {server : NodeServer} {env : ReadEnv} (henv : env.update = none)
    (request : NodeRequest) (h : server.metaInfo.Sized) :
    ∃ server', request.serve env server = .ok server' := by
  cases request with
  | set request =>
    obtain ⟨r, hr⟩ := set_of_sized henv request h
    exact ⟨r.2, by rw [serve, hr]; rfl⟩
  | migrate request =>
    obtain ⟨r, hr⟩ := migrate_of_sized henv request h
    exact ⟨r.2, by rw [serve, hr]; rfl⟩
  | get request | del request | list request =>
    obtain ⟨server', hcache⟩ := getCache_of_sized request.tableName request.id false h
    rw [serve, hcache]
    exact ⟨_, rfl⟩

theorem Service.Stocked.act_ne_zeroDivisor {κ : Type} [DecidableEq κ] {c : Service κ}
    (h : c.Stocked) (a : Action κ) : c.act a ≠ .error .zeroDivisor := by
  have hcommand : ∀ party env request, c.command party env request ≠ .error .zeroDivisor := by
    intro party env request
    unfold Service.command
    split <;> simp
  cases a with
  | apply party env request =>
    rcases act_apply c party env request with hkept | ⟨heq, -⟩
    · simp [hkept]
    · rw [heq]
      exact hcommand party env request
  | createTable node env request =>
    obtain ⟨table?, htable, -⟩ := createTable_spec request (c.deployment.views (.node node))
    simp only [act, htable]
    cases table? with
    | none => exact nofun
    | some table => exact hcommand _ _ _
  | deliver i | restart node => simp [act]
  | serve node migratingInfo env request =>
    have hserve : ∃ server', request.serve { env with update := none }
        ⟨node, c.deployment.views (.node node), migratingInfo, c.caches node⟩ = .ok server' :=
      request.serve_of_sized rfl (h.views (.node node))
    obtain ⟨server', hserve⟩ := hserve
    simp only [act, hserve]
    exact nofun
  | set client tableName keyValues =>
    simp only [act]
    split
    · simp
    · rename_i info hfind
      obtain ⟨table, htable, rfl⟩ := map_eq_some_iff.mp hfind
      rw [splitSetRequst_eq (h.views _ tableName table htable)]
      exact nofun
  | lookUp client tableName keys =>
    simp only [act]
    split
    · simp
    · rename_i info hfind
      obtain ⟨table, htable, rfl⟩ := map_eq_some_iff.mp hfind
      rw [splitArrayRquest_eq (h.views _ tableName table htable)]
      exact nofun
  | getPartition party tableName key =>
    simp only [act]
    split
    · simp
    · rw [getPartition_eq]
      exact nofun

/-- **No divisor is zero.** In every run in which each table is created with at least one partition,
whatever is done next in a state that is reached does not divide by zero. -/
theorem no_zero_divisor {κ : Type} [DecidableEq κ] {c : Service κ}
    (hreach : ((service κ).restrict Sized).Reachable c) (a : Action κ) :
    c.act a ≠ .error .zeroDivisor := by
  have hstocked : c.Stocked := by
    refine hreach.invariant (P := Stocked) ?_ ?_
    · rintro c rfl
      exact .start
    · rintro c a c' ⟨hsized, hact⟩ h
      refine h.step hsized ?_
      change (c.act a).toOption = some c' at hact
      cases hresult : c.act a with
      | error e =>
        rw [hresult] at hact
        cases hact
      | ok c'' =>
        rw [hresult] at hact
        cases hact
        rfl
  exact hstocked.act_ne_zeroDivisor a

/-! ## A table without partitions -/

namespace Sample

/-- A node registers, pulls, and is asked for a table; a client pulls the table. -/
def creation (paritionNum : ℤ) : List (Action Unit) :=
  [.apply (.node (node 1)) env ⟨⟨-1, -1⟩, .ping (node 1)⟩,
    .apply (.node (node 1)) env ⟨⟨-1, -1⟩, .pull (some (node 1)) [] false⟩, .deliver 1,
    .createTable (node 1) env ⟨1, 0, bytes "t", paritionNum, 1, 8⟩, .deliver 1,
    .apply (.client ()) env ⟨⟨-1, -1⟩, .pull none [bytes "t"] false⟩, .deliver 1]

def afterCreation (paritionNum : ℤ) : Service Unit :=
  ((creation paritionNum).foldlM (fun c a => (act c a).toOption) start).getD start

theorem foldlM_creation (paritionNum : ℤ)
    (h : ((creation paritionNum).foldlM (fun c a => (act c a).toOption) start).isSome = true) :
    (creation paritionNum).foldlM (fun c a => (act c a).toOption) start =
      some (afterCreation paritionNum) := by
  obtain ⟨c, hc⟩ := isSome_iff_exists.mp h
  rw [afterCreation, hc, getD_some]

/-- An entry of the table is sent to the node. -/
def migration : Action Unit :=
  .serve (node 1) ∅ ⟨⟨1, none, fun _ => .failed 0, none⟩, []⟩
    (.migrate ⟨⟨1, 1, bytes "t", 0⟩, ∅, false⟩)

end Sample

open Sample

theorem no_zero_divisor_created : ((service Unit).restrict Sized).Reachable (afterCreation 1) ∧
      (afterCreation 1).act Sample.migration ≠ .error .zeroDivisor := by
  have hadmits : System.Admits Sized (fun c a => (act c a).toOption) start (creation 1) :=
    .cons trivial rfl <| .cons trivial rfl <| .cons trivial rfl <|
      .cons (show (0 : ℤ) < 1 by decide) rfl <| .cons trivial rfl <| .cons trivial rfl <|
      .cons trivial rfl trivial
  have hreach : ((service Unit).restrict Sized).Reachable (afterCreation 1) :=
    ⟨start, rfl, System.run_restrict_of_admits hadmits (foldlM_creation 1 rfl)⟩
  exact ⟨hreach, no_zero_divisor hreach Sample.migration⟩

/-- A table that was asked for without partitions: the client divides by zero when it routes a key,
and the node when it gets an entry. -/
theorem empty_table_divides : (service Unit).Reachable (afterCreation 0) ∧
      (afterCreation 0).act (.set () (bytes "t") ⟨[⟨[1], [2]⟩], by simp⟩) = .error .zeroDivisor ∧
      (afterCreation 0).act Sample.migration = .error .zeroDivisor :=
  ⟨⟨start, rfl, System.run_of_foldlM (foldlM_creation 0 rfl)⟩, rfl, rfl⟩

end Noah
