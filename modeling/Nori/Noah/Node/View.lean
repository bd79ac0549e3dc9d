import Nori.Noah.Agreement

/-!
# The view of a node over time

The threads of a node server ask the leader on their own: a ping that reports another version, a
request that carries a newer one, a migration and a creation each send a request, wait for the
answer and install it under the writer lock. What is installed is not compared with the view that
is there by then. So an answer that was overtaken takes the view back to an older state, and a
table that was created is added to whatever tables the view has by then. Answers that are installed
in the order in which the leader gave them do neither.
-/

namespace Noah

open Butil Container Transition NodeServer List Option

/-! ## The states of the leader -/

/-- A later state of the leader: the counters are no smaller, and where neither of them moved the
tables and the index did not change. -/
structure MetaInfo.Later (s s' : MetaInfo) : Prop where
  version_le : s.version ≤ s'.version
  eq_of_version : s.version = s'.version → s.tableInfo = s'.tableInfo ∧ s.nodeTable = s'.nodeTable

namespace MetaInfo.Later

variable {s s' t : MetaInfo}

theorem refl (s : MetaInfo) : s.Later s := ⟨le_rfl, fun _ => ⟨rfl, rfl⟩⟩

theorem trans (h : s.Later t) (h' : t.Later s') : s.Later s' where
  version_le := h.version_le.trans h'.version_le
  eq_of_version hversion := by
    have hst : s.version = t.version := le_antisymm h.version_le (hversion ▸ h'.version_le)
    obtain ⟨htables, hindex⟩ := h.eq_of_version hst
    obtain ⟨htables', hindex'⟩ := h'.eq_of_version (hst ▸ hversion)
    exact ⟨htables.trans htables', hindex.trans hindex'⟩

theorem of_ne (hle : s.version ≤ s'.version) (hne : s.version ≠ s'.version) : s.Later s' :=
  ⟨hle, fun heq => absurd heq hne⟩

theorem effect {env : Env} {op : Op} (heffect : Effect env s op s') : s.Later s' := by
  have hfence := Fence.effect heffect
  have hle : s.version ≤ s'.version := ⟨hfence.epoch_le, hfence.version_le⟩
  have hmoved (h : s'.version.epoch = s.version.epoch + 1 ∨
      s'.version.version = s.version.version + 1) : s.Later s' := by
    refine of_ne hle fun heq => ?_
    rw [heq] at h
    omega
  cases heffect with
  | unchanged => exact refl s
  | stamped node info known up => exact ⟨hle, fun _ => ⟨rfl, rfl⟩⟩
  | failedBack node info known down | registered node unknown => exact hmoved (.inl rfl)
  | created table absent | migrated processor table p listed partition fresh =>
    exact hmoved (.inr rfl)
  | downed nodes member => exact hmoved (.inl (by rw [MetaInfo.generateMigrateTasks_version]; rfl))
  | dropped tables changed =>
    refine hmoved (.inr ?_)
    rw [MetaInfo.bumpVersion, (MetaInfo.foldl_dropOne_frame tables (false, s)).1]

end MetaInfo.Later

/-- A copy of a state, as far as reads by node go: an entry without tables may be missing. -/
structure MetaInfo.CopyOf (s snapshot : MetaInfo) : Prop where
  version_eq : snapshot.version = s.version
  tables_eq : snapshot.tableInfo = s.tableInfo
  index_eq : ∀ n, tablesOf snapshot.nodeTable n = tablesOf s.nodeTable n

theorem MetaInfo.CopyOf.refl (s : MetaInfo) : s.CopyOf s := ⟨rfl, rfl, fun _ => rfl⟩

theorem MetaInfo.CopyOf.later {s s' snapshot : MetaInfo} (hlater : s.Later s')
    (hversion : s.version = s'.version) (h : s.CopyOf snapshot) : s'.CopyOf snapshot := by
  obtain ⟨htables, hindex⟩ := hlater.eq_of_version hversion
  exact ⟨h.version_eq.trans hversion, h.tables_eq.trans htables, fun n => hindex ▸ h.index_eq n⟩

theorem MetaInfo.CopyOf.pullSnapshot {s snapshot : MetaInfo} (node : Option Node)
    (h : s.CopyOf snapshot) : s.CopyOf (Noah.pullSnapshot snapshot node) := by
  unfold Noah.pullSnapshot
  split
  · exact h
  · rename_i m
    split
    · exact h
    · rename_i hnone
      refine ⟨h.version_eq, h.tables_eq, fun n => ?_⟩
      rw [← h.index_eq n, tablesOf, tablesOf]
      by_cases hn : node2String n = node2String m
      · rw [hn, AList.lookup_insert, hnone]
        rfl
      · rw [AList.lookup_insert_ne hn]

namespace MetaServer

variable {s s' : MetaServer} {env : Env} {request : MetaCmdRequest} {response : MetaCmdResponse}
  {history : List MetaInfo}

/-- The cached snapshot is a copy of a state of the leader. -/
def Caches (history : List MetaInfo) (s : MetaServer) : Prop :=
  ∀ snapshot ∈ s.snapshot, ∃ t ∈ history, t.CopyOf snapshot

theorem getMetaInfoSnapshot_snapshot (s : MetaServer) :
    s.getMetaInfoSnapshot.2.snapshot = some s.getMetaInfoSnapshot.1 := by
  unfold getMetaInfoSnapshot
  split
  · split
    · rfl
    · assumption
  · rfl

theorem getMetaInfoSnapshot_fst (s : MetaServer) :
    s.getMetaInfoSnapshot.1 = s.metaInfo ∨ s.snapshot = some s.getMetaInfoSnapshot.1 := by
  unfold getMetaInfoSnapshot
  split
  · split
    · exact .inl rfl
    · exact .inr (by assumption)
  · exact .inl rfl

/-- A snapshot that is handed out is a copy of the current state: a cached one is only handed out
while no counter has moved. -/
theorem Caches.current (hlater : ∀ t ∈ history, t.Later s.metaInfo) (h : s.Caches history) :
    s.metaInfo.CopyOf s.getMetaInfoSnapshot.1 := by
  unfold getMetaInfoSnapshot
  split
  · rename_i snapshot hsnapshot
    split
    · exact .refl _
    · rename_i hchanged
      obtain ⟨t, ht, hcopy⟩ := h snapshot hsnapshot
      refine hcopy.later (hlater t ht) (le_antisymm (hlater t ht).version_le ?_)
      rw [Bool.not_eq_true, MetaInfo.changed, Bool.or_eq_false_iff, decide_eq_false_iff_not,
        decide_eq_false_iff_not, not_lt, not_lt, hcopy.version_eq] at hchanged
      exact hchanged
  · exact .refl _

theorem snapshot_of_apply (h : s.apply env request = some (response, s'))
    {snapshot : MetaInfoSnapshot} (hmem : snapshot ∈ s'.snapshot) :
    snapshot ∈ s.snapshot ∨ snapshot = s'.metaInfo ∨
      ∃ node, snapshot = pullSnapshot s.getMetaInfoSnapshot.1 node := by
  have hget := s.getMetaInfoSnapshot_snapshot
  obtain ⟨version, cmd⟩ := request
  cases cmd with
  | ping node =>
    let pinged : MetaServer := { s.getMetaInfoSnapshot.2 with
      metaInfo := (s.getMetaInfoSnapshot.2.metaInfo.updateNode env node).2 }
    have hcached : pinged.snapshot = some s.getMetaInfoSnapshot.1 := hget
    have hdeal : s.dealPing env node = some (response, s') := h
    unfold dealPing at hdeal
    simp only at hdeal
    split at hdeal
    · obtain ⟨r, -, hresult⟩ := map_eq_some_iff.mp hdeal
      -- the snapshot is asked for again after the ping, and may be the new state
      have hs' : { pinged.getMetaInfoSnapshot.2 with metaMigrate := r.2 } = s' :=
        (Prod.mk.inj hresult).2
      have hmeta : s'.metaInfo = pinged.metaInfo := by
        rw [← hs']
        exact getMetaInfoSnapshot_metaInfo pinged
      have hsnapshot : s'.snapshot = some pinged.getMetaInfoSnapshot.1 := by
        rw [← hs']
        exact getMetaInfoSnapshot_snapshot pinged
      rw [hsnapshot, mem_some_iff] at hmem
      subst hmem
      rcases pinged.getMetaInfoSnapshot_fst with hnew | hold
      · exact .inr (.inl (hnew.trans hmeta.symm))
      · exact .inr (.inr ⟨none, (some.inj (hcached.symm.trans hold)).symm⟩)
    · cases hdeal
      rw [show _ = some _ from hcached, mem_some_iff] at hmem
      exact .inr (.inr ⟨none, hmem.symm⟩)
  | pull node names all =>
    cases h
    exact .inr (.inr ⟨node, (some.inj hmem).symm⟩)
  | listTable | listNode =>
    cases h
    change snapshot ∈ s.getMetaInfoSnapshot.2.snapshot at hmem
    rw [hget, mem_some_iff] at hmem
    exact .inr (.inr ⟨none, hmem.symm⟩)
  | init table | dropTable names | downNodes nodes =>
    simp only [apply, dealRequest, dealInit, dealDropTable, dealDownNodes] at h
    split_ifs at h <;> cases h <;> exact .inl hmem
  | migrate unit =>
    obtain ⟨⟨info, metaInfo⟩, -, hresult⟩ := map_eq_some_iff.mp h
    simp only at hresult
    split_ifs at hresult <;> cases hresult <;> exact .inl hmem
  | unsupported =>
    cases h
    exact .inl hmem

theorem Caches.apply (hlater : ∀ t ∈ history, t.Later s.metaInfo) (hcurrent : s.metaInfo ∈ history)
    (happly : s.apply env request = some (response, s')) (h : s.Caches history) :
    s'.Caches (history ++ [s'.metaInfo]) := by
  intro snapshot hmem
  rcases snapshot_of_apply happly hmem with hold | rfl | ⟨node, rfl⟩
  · obtain ⟨t, ht, hcopy⟩ := h snapshot hold
    exact ⟨t, mem_append_left _ ht, hcopy⟩
  · exact ⟨s'.metaInfo, by simp, .refl _⟩
  · exact ⟨s.metaInfo, mem_append_left _ hcurrent, (h.current hlater).pullSnapshot node⟩

theorem later_of_apply (h : s.apply env request = some (response, s')) :
    s.metaInfo.Later s'.metaInfo := by
  rcases effect_of_apply h with heq | ⟨op, -, heffect⟩
  · exact heq ▸ .refl _
  · exact .effect heffect

theorem keyed_of_apply (h : s.apply env request = some (response, s'))
    (hs : s.metaInfo.Keyed) : s'.metaInfo.Keyed := by
  rcases effect_of_apply h with heq | ⟨op, -, heffect⟩
  · exact heq ▸ hs
  · exact hs.effect heffect

end MetaServer

/-! ## A node and its calls -/

/-- A node server as far as its view goes: the requests its threads have sent, and the answers that
are under way in the order in which the leader gave them. The history holds every state the leader
has had, the current one last. -/
structure Viewer where
  server : MetaServer
  history : List MetaInfo
  view : Common.MetaInfo
  asked : List MetaCmdRequest
  answers : List (Reply Empty)

namespace Viewer

inductive Action
  | update (info : VersionInfo)
  | create (table : Table)
  | other (env : Env) (request : MetaCmdRequest)
  | answer (i : ℕ) (env : Env)
  | install (i : ℕ)
  | loseRequest (i : ℕ)
  | loseAnswer (i : ℕ)

/-- The leader deals with a request. -/
def deal (env : Env) (request : MetaCmdRequest) (c : Viewer) : Option (MetaCmdResponse × Viewer) :=
  (c.server.apply env request).map fun (response, server) =>
    (response, { c with server := server, history := c.history ++ [server.metaInfo] })

/-- One step of a thread of the node, or of the leader. -/
def act (node : Node) (c : Viewer) : Action → Option Viewer
  -- `UpdateMetaInfo` up to its request: `CheckShouldUpdate` compares the version once, here
  | .update info =>
    if info = c.view.version then some c
    else some { c with asked := c.asked ++ [⟨info, .pull (some node) [] false⟩] }
  -- `CreateTable` up to its request, which carries the version of the view
  | .create table => some { c with asked := c.asked ++ [⟨c.view.version, .init table⟩] }
  | .other env request => (c.deal env request).map (·.2)
  | .answer i env =>
    c.asked[i]?.bind fun request =>
      (c.deal env request).map fun (response, c) =>
        { c with
          asked := c.asked.eraseIdx i
          answers := c.answers ++ [⟨.node node, request, response⟩] }
  -- the rest of `UpdateMetaInfo` or `CreateTable`, under the writer lock
  | .install i =>
    c.answers[i]?.map fun reply =>
      { c with view := reply.install c.view, answers := c.answers.eraseIdx i }
  -- a call that gets no answer returns
  | .loseRequest i => some { c with asked := c.asked.eraseIdx i }
  | .loseAnswer i => some { c with answers := c.answers.eraseIdx i }

def start : Viewer := ⟨MetaServer.start, [MetaInfo.start], .empty, [], []⟩

/-- Answers are installed in the order in which the leader gave them. -/
def InOrder (c : Viewer) : Action → Prop
  | .install i => ∀ earlier ∈ c.answers.take i, earlier.response.status ≠ .ok
  | _ => True

end Viewer

open Viewer

/-- The interleavings of the calls of a node. -/
def viewer (node : Node) : System Viewer Action := .ofStep start (act node)

/-- A view has the version and the tables of one state of the leader: every table it has is a table
of the state, and it has the tables that the state lists for the node. The empty view shows the
first state. -/
structure Shows (node : Node) (s : MetaInfo) (view : Common.MetaInfo) : Prop where
  version_eq : view.version = s.version ∨ (view = .empty ∧ s = MetaInfo.start)
  tables : ∀ name table, view.tableInfo.lookup name = some table →
    ∃ t, s.tableInfo.lookup name = some t ∧ table = .ofMessage t
  complete : ∀ name t, s.tableInfo.lookup name = some t → name ∈ tablesOf s.nodeTable node →
    view.tableInfo.lookup name = some (.ofMessage t)

namespace Shows

variable {node : Node} {s s' : MetaInfo} {view : Common.MetaInfo}

theorem empty (node : Node) : Shows node MetaInfo.start .empty where
  version_eq := .inr ⟨rfl, rfl⟩
  tables name table h := by simp [Common.MetaInfo.empty] at h
  complete name t h := by simp [MetaInfo.start] at h

theorem of_later (hversion : view.version = s.version) (h : Shows node s view)
    (heq : s.tableInfo = s'.tableInfo ∧ s.nodeTable = s'.nodeTable)
    (hversion' : s.version = s'.version) : Shows node s' view where
  version_eq := .inl (hversion.trans hversion')
  tables := heq.1 ▸ h.tables
  complete := heq.1 ▸ heq.2 ▸ h.complete

theorem of_pull (hkeyed : s.Keyed) {response : MetaCmdResponse}
    (hversion : response.version = s.version)
    (hinfo : response.info = pullTables s (some node) [] false) :
    Shows node s (Cluster.updateTableInfo response) where
  version_eq := .inl hversion
  tables name table htable := by
    obtain ⟨t, ht, rfl, rfl⟩ := Cluster.lookup_updateTableInfo htable
    rw [hinfo] at ht
    obtain ⟨name, hname⟩ := lookup_of_mem_pullTables ht
    exact ⟨t, hkeyed name t hname ▸ hname, rfl⟩
  complete name t ht hlisted := by
    have hmem : t ∈ response.info := hinfo ▸ mem_filterMap.mpr ⟨name, hlisted, ht⟩
    rw [← hkeyed name t ht]
    refine Cluster.lookup_updateTableInfo_of_mem hmem fun u hu hname => ?_
    rw [hinfo] at hu
    obtain ⟨name', hname'⟩ := lookup_of_mem_pullTables hu
    -- both names are the keys the tables are stored under
    rw [hkeyed name t ht, hkeyed name' u hname'] at hname
    rw [hname, ht] at hname'
    exact (some.inj hname').symm

theorem of_created (env : Env) {table : Table} (h : Shows node s view) :
    Shows node (s.addTable env table)
      (installCreated (s.addTable env table).version table view) where
  version_eq := .inl rfl
  tables name table' htable := by
    rw [installCreated, UnorderedMap.lookup_assign] at htable
    rw [lookup_addTable]
    split at htable
    · rename_i hname
      cases htable
      exact ⟨_, if_pos hname, rfl⟩
    · rename_i hname
      obtain ⟨t, ht, rfl⟩ := h.tables name table' htable
      exact ⟨t, by rw [if_neg hname, ht], rfl⟩
  complete name t ht hlisted := by
    rw [lookup_addTable] at ht
    rw [installCreated, UnorderedMap.lookup_assign]
    split at ht
    · rename_i hname
      cases ht
      rw [if_pos hname]
      rfl
    · rename_i hname
      rw [if_neg hname]
      refine h.complete name t ht ?_
      rcases mem_tablesOf_setNodeTable.mp hlisted with hold | ⟨-, heq⟩
      · exact hold
      · exact absurd heq hname

end Shows

/-! ## What every step keeps -/

/-- The version a view must have for an answer to make it the view of one state. -/
def Reply.base (reply : Reply Empty) : VersionInfo :=
  match reply.request.cmd with
  | .init _ => reply.request.version
  | _ => reply.response.version

theorem Reply.install_pulled {reply : Reply Empty} {view : Common.MetaInfo} {node m : Node}
    {names : List Bytes} {all : Bool} (hparty : reply.party = .node m)
    (hcmd : reply.request.cmd = .pull (some node) names all) (hok : reply.response.status = .ok) :
    reply.install view = Cluster.updateTableInfo reply.response := by
  rw [Reply.install, if_neg (not_not.mpr hok)]
  simp only [hparty, hcmd]
  exact updateMetaInfo_fst reply.response view

/-- An answer that is installed, and the states it comes from: a pull was read from one state, and
a creation led from one state to the next. -/
inductive Given (node : Node) (history : List MetaInfo) (view : Common.MetaInfo) :
    Reply Empty → Prop
  | pulled {s : MetaInfo} {version : VersionInfo} {response : MetaCmdResponse} (hs : s ∈ history)
      (hversion : response.version = s.version)
      (hinfo : response.info = pullTables s (some node) [] false) :
      Given node history view ⟨.node node, ⟨version, .pull (some node) [] false⟩, response⟩
  | created {s : MetaInfo} {env : Env} {table : Table} {response : MetaCmdResponse}
      (hs : s ∈ history) (hs' : s.addTable env table ∈ history)
      (hversion : response.version = (s.addTable env table).version)
      (hle : s.version ≤ view.version) :
      Given node history view ⟨.node node, ⟨s.version, .init table⟩, response⟩

namespace Given

variable {node : Node} {history history' : List MetaInfo} {view view' : Common.MetaInfo}
  {reply : Reply Empty}

theorem mono (hhistory : history ⊆ history') (hview : view.version ≤ view'.version)
    (h : Given node history view reply) : Given node history' view' reply := by
  cases h with
  | pulled hs hversion hinfo => exact .pulled (hhistory hs) hversion hinfo
  | created hs hs' hversion hle =>
    exact .created (hhistory hs) (hhistory hs') hversion (hle.trans hview)

theorem base_le (h : Given node history view reply) : reply.base ≤ reply.response.version := by
  cases h with
  | pulled hs hversion hinfo => exact le_rfl
  | created hs hs' hversion hle =>
    rw [hversion]
    exact ⟨le_rfl, MetaInfo.version_le_bumpVersion⟩

end Given

namespace Viewer

variable {node : Node} {c c' : Viewer}

/-- Everything is dated: the states of the leader follow each other, the view shows one of them,
and the answers under way come from later ones, in the order in which they were given. -/
structure Dated (node : Node) (c : Viewer) : Prop where
  head : c.history.head? = some MetaInfo.start
  current : c.server.metaInfo ∈ c.history
  pairwise : c.history.Pairwise MetaInfo.Later
  later : ∀ s ∈ c.history, s.Later c.server.metaInfo
  keyed : ∀ s ∈ c.history, s.Keyed
  caches : c.server.Caches c.history
  view : ∃ s ∈ c.history, Shows node s c.view
  view_le : c.view.version ≤ c.server.metaInfo.version
  asked : ∀ request ∈ c.asked, request.cmd = .pull (some node) [] false ∨
    ∃ table, request.cmd = .init table ∧ request.version ≤ c.view.version
  answers : ∀ reply ∈ c.answers, reply.response.status = .ok →
    Given node c.history c.view reply ∧ c.view.version ≤ reply.base ∧
      reply.response.version ≤ c.server.metaInfo.version
  chain : c.answers.Pairwise fun a b => a.response.status = .ok → b.response.status = .ok →
    a.response.version ≤ b.base

namespace Dated

theorem start (node : Node) : Dated node start where
  head := rfl
  current := mem_singleton.mpr rfl
  pairwise := pairwise_singleton _ _
  later s hs := mem_singleton.mp hs ▸ .refl _
  keyed s hs := by
    rw [mem_singleton.mp hs]
    rintro name table ⟨⟩
  caches := by rintro snapshot ⟨⟩
  view := ⟨_, mem_singleton.mpr rfl, .empty node⟩
  view_le := by constructor <;> decide
  asked := by rintro request ⟨⟩
  answers := by rintro reply ⟨⟩
  chain := .nil

section

variable {env : Env} {request : MetaCmdRequest} {response : MetaCmdResponse}
  (hdeal : c.deal env request = some (response, c'))
include hdeal

theorem deal_frame :
    c'.history = c.history ++ [c'.server.metaInfo] ∧ c'.view = c.view ∧ c'.asked = c.asked ∧
      c'.answers = c.answers := by
  obtain ⟨⟨response, server⟩, -, hresult⟩ := map_eq_some_iff.mp hdeal
  obtain ⟨-, rfl⟩ := Prod.mk.inj hresult
  exact ⟨rfl, rfl, rfl, rfl⟩

variable (h : Dated node c)
include h

theorem deal : Dated node c' := by
  obtain ⟨⟨response, server⟩, happly, hresult⟩ := map_eq_some_iff.mp hdeal
  obtain ⟨-, rfl⟩ := Prod.mk.inj hresult
  have hlater := MetaServer.later_of_apply happly
  have hle : c.history ⊆ c.history ++ [server.metaInfo] := subset_append_left _ _
  have hbelow : ∀ s ∈ c.history, s.Later server.metaInfo := fun s hs => (h.later s hs).trans hlater
  refine ⟨?_, ?_, ?_, ?_, ?_, ?_, ?_, ?_, h.asked, ?_, h.chain⟩
  · simp [head?_append, h.head]
  · simp
  · exact pairwise_append.mpr ⟨h.pairwise, pairwise_singleton _ _, fun s hs t ht =>
      mem_singleton.mp ht ▸ hbelow s hs⟩
  · exact forall_mem_append.mpr ⟨hbelow, forall_mem_singleton.mpr (.refl _)⟩
  · exact forall_mem_append.mpr ⟨h.keyed,
      forall_mem_singleton.mpr (MetaServer.keyed_of_apply happly (h.keyed _ h.current))⟩
  · exact h.caches.apply h.later h.current happly
  · obtain ⟨s, hs, hshows⟩ := h.view
    exact ⟨s, hle hs, hshows⟩
  · exact h.view_le.trans hlater.version_le
  · intro reply hreply hok
    obtain ⟨hgiven, hbase, hversion⟩ := h.answers reply hreply hok
    exact ⟨hgiven.mono hle le_rfl, hbase, hversion.trans hlater.version_le⟩

theorem given (hrequest : request ∈ c.asked) (hok : response.status = .ok) :
    Given node c'.history c.view ⟨.node node, request, response⟩ ∧
      c.server.metaInfo.version ≤ (⟨.node node, request, response⟩ : Reply Empty).base ∧
      response.version ≤ c'.server.metaInfo.version := by
  obtain ⟨⟨response, server⟩, happly, hresult⟩ := map_eq_some_iff.mp hdeal
  cases hresult
  have hle : c.history ⊆ c.history ++ [server.metaInfo] := subset_append_left _ _
  obtain ⟨version, cmd⟩ := request
  rcases h.asked _ hrequest with hcmd | ⟨table, hcmd, hversion⟩
  · subst hcmd
    have hcopy := h.caches.current h.later
    have hresponse : pullResponse c.server.getMetaInfoSnapshot.1 (some node) [] false = response :=
      (Prod.mk.inj (some.inj happly)).1
    have hresponse_version : response.version = c.server.metaInfo.version := by
      rw [← hresponse]
      exact hcopy.version_eq
    refine ⟨.pulled (hle h.current) hresponse_version ?_, hresponse_version.ge, ?_⟩
    · rw [← hresponse]
      simp only [pullResponse, pullTables, hcopy.tables_eq, hcopy.index_eq]
    · rw [hresponse_version]
      exact (MetaServer.later_of_apply happly).version_le
  · subst hcmd
    obtain ⟨rfl, hmeta, hresponse⟩ := addTable_of_dealInit_ok (some.inj happly) hok
    refine ⟨.created (hle h.current) (hmeta ▸ mem_append_right _ (mem_singleton.mpr rfl))
      hresponse hversion, le_rfl, ?_⟩
    rw [hresponse, ← hmeta]

theorem answer (i : ℕ) (hrequest : request ∈ c.asked) : Dated node { c' with
      asked := c'.asked.eraseIdx i
      answers := c'.answers ++ [⟨.node node, request, response⟩] } := by
  have hc' := h.deal hdeal
  obtain ⟨-, hview, -, hanswers⟩ := deal_frame hdeal
  have hgiven := h.given hdeal hrequest
  refine { hc' with
    asked other hother := hc'.asked other (mem_of_mem_eraseIdx hother)
    answers := forall_mem_append.mpr ⟨hc'.answers, forall_mem_singleton.mpr fun hok => ?_⟩
    chain := ?_ }
  · obtain ⟨hgiven, hbase, hversion⟩ := hgiven hok
    exact ⟨hgiven.mono (Subset.refl _) (hview ▸ le_rfl), hview ▸ h.view_le.trans hbase, hversion⟩
  · refine pairwise_append.mpr ⟨hc'.chain, pairwise_singleton _ _, ?_⟩
    intro earlier hearlier reply hnew hok hok'
    -- what was answered before is no newer than the state of the leader
    rw [mem_singleton] at hnew
    subst hnew
    rw [hanswers] at hearlier
    exact (h.answers earlier hearlier hok).2.2.trans (hgiven hok').2.1

end

variable (h : Dated node c)
include h

theorem eq_of_version {s t : MetaInfo} (hs : s ∈ c.history) (ht : t ∈ c.history)
    (hversion : s.version = t.version) :
    s.tableInfo = t.tableInfo ∧ s.nodeTable = t.nodeTable := by
  let R (s t : MetaInfo) : Prop := s.version = t.version →
    s.tableInfo = t.tableInfo ∧ s.nodeTable = t.nodeTable
  have hpairwise : c.history.Pairwise R := h.pairwise.imp fun hlater => hlater.eq_of_version
  have hsymm : Std.Symm R := ⟨fun s t hst heq => (hst heq.symm).imp Eq.symm Eq.symm⟩
  exact hpairwise.forall_of_forall (fun _ _ _ => ⟨rfl, rfl⟩) hs ht hversion

theorem start_version_le {s : MetaInfo} (hs : s ∈ c.history) :
    MetaInfo.start.version ≤ s.version := by
  have hpairwise := h.pairwise
  obtain ⟨rest, hrest⟩ := head?_eq_some_iff.mp h.head
  rw [hrest] at hs hpairwise
  rcases mem_cons.mp hs with rfl | hs
  · exact le_rfl
  · exact ((pairwise_cons.mp hpairwise).1 s hs).version_le

theorem shows_of_version {s : MetaInfo} (hs : s ∈ c.history)
    (hversion : c.view.version = s.version) : Shows node s c.view := by
  obtain ⟨t, ht, hshows⟩ := h.view
  rcases hshows.version_eq with heq | ⟨hempty, -⟩
  · have hts : t.version = s.version := heq.symm.trans hversion
    exact hshows.of_later heq (h.eq_of_version ht hs hts) hts
  · -- no state of the leader has the version of the empty view
    have hle := (h.start_version_le hs).1
    rw [← hversion, hempty] at hle
    exact absurd hle (by decide)

theorem install {reply : Reply Empty} (hreply : reply ∈ c.answers)
    (hok : reply.response.status = .ok) :
    (reply.install c.view).version = reply.response.version ∧
      ∃ s ∈ c.history, Shows node s (reply.install c.view) := by
  obtain ⟨hgiven, hbase, -⟩ := h.answers reply hreply hok
  cases hgiven with
  | @pulled s version response hs hversion hinfo =>
    rw [Reply.install_pulled rfl rfl hok]
    exact ⟨rfl, s, hs, .of_pull (h.keyed s hs) hversion hinfo⟩
  | @created s env table response hs hs' hversion hle =>
    rw [Reply.install, if_neg (not_not.mpr hok)]
    refine ⟨rfl, s.addTable env table, hs', ?_⟩
    rw [hversion]
    -- the view is still where it was when the request was sent
    exact (h.shows_of_version hs (le_antisymm hbase hle)).of_created env

theorem loseAnswer (i : ℕ) : Dated node { c with answers := c.answers.eraseIdx i } := { h with
  answers reply hreply := h.answers reply (mem_of_mem_eraseIdx hreply)
  chain := h.chain.sublist (eraseIdx_sublist _ _) }

theorem installed {i : ℕ} {reply : Reply Empty} (horder : c.InOrder (.install i))
    (hreply : c.answers[i]? = some reply) :
    Dated node { c with view := reply.install c.view, answers := c.answers.eraseIdx i } ∧
      c.view.version ≤ (reply.install c.view).version := by
  have hmem := mem_of_getElem? hreply
  by_cases hok : reply.response.status = .ok
  · obtain ⟨hgiven, hbase, hserver⟩ := h.answers reply hmem hok
    obtain ⟨hversion, hview⟩ := h.install hmem hok
    have hle : c.view.version ≤ (reply.install c.view).version :=
      hversion ▸ hbase.trans hgiven.base_le
    have hsplit : c.answers = c.answers.take i ++ reply :: c.answers.drop (i + 1) := by
      obtain ⟨hi, rfl⟩ := List.getElem?_eq_some_iff.mp hreply
      rw [getElem_cons_drop, take_append_drop]
    refine ⟨⟨h.head, h.current, h.pairwise, h.later, h.keyed, h.caches, hview, ?_, ?_, ?_,
      h.chain.sublist (eraseIdx_sublist _ _)⟩, hle⟩
    · exact hversion ▸ hserver
    · intro request hrequest
      exact (h.asked request hrequest).imp_right fun ⟨table, hcmd, hrequest_le⟩ =>
        ⟨table, hcmd, hrequest_le.trans hle⟩
    · intro other hother hother_ok
      obtain ⟨hother_given, -, hother_server⟩ :=
        h.answers other (mem_of_mem_eraseIdx hother) hother_ok
      refine ⟨hother_given.mono (Subset.refl _) hle, ?_, hother_server⟩
      rw [eraseIdx_eq_take_drop_succ] at hother
      rcases mem_append.mp hother with hearlier | hlater
      · exact absurd hother_ok (horder other hearlier)
      · -- the answers that are left were given later
        have hchain := h.chain
        rw [hsplit] at hchain
        have hcons := (pairwise_append.mp hchain).2.1
        exact hversion ▸ (pairwise_cons.mp hcons).1 other hlater hok hother_ok
  · have hinstall : reply.install c.view = c.view := by rw [Reply.install, if_pos hok]
    rw [hinstall]
    exact ⟨h.loseAnswer i, le_rfl⟩

theorem step {a : Action} (horder : c.InOrder a) (hact : c.act node a = some c') :
    Dated node c' ∧ c.history <+: c'.history ∧ c.view.version ≤ c'.view.version := by
  cases a with
  | update info =>
    simp only [act] at hact
    split_ifs at hact <;> cases hact
    · exact ⟨h, prefix_rfl, le_rfl⟩
    · refine ⟨{ h with asked := ?_ }, prefix_rfl, le_rfl⟩
      exact forall_mem_append.mpr ⟨h.asked, forall_mem_singleton.mpr (.inl rfl)⟩
  | create table =>
    cases hact
    refine ⟨{ h with asked := forall_mem_append.mpr ⟨h.asked, forall_mem_singleton.mpr ?_⟩ },
      prefix_rfl, le_rfl⟩
    exact .inr ⟨table, rfl, le_rfl⟩
  | other env request =>
    obtain ⟨⟨response, c'⟩, hdeal, rfl⟩ := map_eq_some_iff.mp hact
    obtain ⟨hhistory, hview, -, -⟩ := deal_frame hdeal
    exact ⟨h.deal hdeal, hhistory ▸ prefix_append _ _, hview ▸ le_rfl⟩
  | answer i env =>
    obtain ⟨request, hrequest, hbind⟩ := bind_eq_some_iff.mp hact
    obtain ⟨⟨response, c'⟩, hdeal, rfl⟩ := map_eq_some_iff.mp hbind
    exact ⟨h.answer hdeal i (mem_of_getElem? hrequest),
      (deal_frame hdeal).1 ▸ prefix_append _ _, (deal_frame hdeal).2.1 ▸ le_rfl⟩
  | install i =>
    obtain ⟨reply, hreply, rfl⟩ := map_eq_some_iff.mp hact
    obtain ⟨hdated, hle⟩ := h.installed horder hreply
    exact ⟨hdated, prefix_rfl, hle⟩
  | loseRequest i =>
    cases hact
    exact ⟨{ h with
        asked := fun request hrequest => h.asked request (mem_of_mem_eraseIdx hrequest) },
      prefix_rfl, le_rfl⟩
  | loseAnswer i =>
    cases hact
    exact ⟨h.loseAnswer i, prefix_rfl, le_rfl⟩

theorem run (hrun : ((viewer node).restrict InOrder).Run c c') :
    Dated node c' ∧ c.history <+: c'.history ∧ c.view.version ≤ c'.view.version := by
  let R (c c' : Viewer) : Prop := c.history <+: c'.history ∧ c.view.version ≤ c'.view.version
  refine hrun.preorder (R := R) (fun _ => ⟨prefix_rfl, le_rfl⟩)
    (fun _ _ _ h h' => ⟨h.1.trans h'.1, h.2.trans h'.2⟩) ?_ h
  rintro c a c' ⟨horder, hact⟩ hc
  exact hc.step horder hact

end Dated

end Viewer

/-- **The view follows the leader.** In every run in which answers are installed in the order in
which the leader gave them, neither counter of the view ever falls, and the view shows one state
the leader had, at any later time one that is no older. -/
theorem view_follows_leader {node : Node} {c c' : Viewer}
    (hreach : ((viewer node).restrict InOrder).Reachable c)
    (hrun : ((viewer node).restrict InOrder).Run c c') :
    (c.view.version.epoch ≤ c'.view.version.epoch ∧
      c.view.version.version ≤ c'.view.version.version) ∧
    ∃ (i j : ℕ) (s s' : MetaInfo), i ≤ j ∧ c'.history[i]? = some s ∧ c'.history[j]? = some s' ∧
      Shows node s c.view ∧ Shows node s' c'.view := by
  obtain ⟨c₀, rfl, hrun₀⟩ := hreach
  have hc := ((Dated.start node).run hrun₀).1
  obtain ⟨hc', hprefix, hle⟩ := hc.run hrun
  refine ⟨hle, ?_⟩
  obtain ⟨s, hs, hshows⟩ := hc.view
  obtain ⟨s', hs', hshows'⟩ := hc'.view
  obtain ⟨j, hj⟩ := mem_iff_getElem?.mp hs'
  rcases hshows.version_eq with hversion | ⟨-, rfl⟩
  · have hs₁ := hprefix.subset hs
    obtain ⟨i, hi⟩ := mem_iff_getElem?.mp hs₁
    rcases Nat.lt_or_ge j i with hji | hij
    · -- a later view of a state with a smaller index has the same version
      have hback : s'.version ≤ s.version := by
        obtain ⟨hi₁, rfl⟩ := List.getElem?_eq_some_iff.mp hi
        obtain ⟨hj₁, rfl⟩ := List.getElem?_eq_some_iff.mp hj
        exact (pairwise_iff_getElem.mp hc'.pairwise j i hj₁ hi₁ hji).version_le
      have hsame : c'.view.version = s.version := by
        rcases hshows'.version_eq with hversion' | ⟨hempty, -⟩
        · exact le_antisymm (hversion' ▸ hback) (hversion ▸ hle)
        · have hpos := (hc'.start_version_le hs₁).1
          rw [hempty, hversion] at hle
          exact absurd (hpos.trans hle.1) (by decide)
      exact ⟨i, i, s, s, le_rfl, hi, hi, hshows, hc'.shows_of_version hs₁ hsame⟩
    · exact ⟨i, j, s, s', hij, hi, hj, hshows, hshows'⟩
  · refine ⟨0, j, MetaInfo.start, s', Nat.zero_le j, ?_, hj, hshows, hshows'⟩
    rw [← head?_eq_getElem?]
    exact hc'.head

/-! ## An answer that is overtaken -/

namespace Sample

/-- Two threads of a node pull, one before a second node registers and one after. The second
answer is installed first. -/
def overtaking : List Action :=
  [.other env ⟨⟨0, 0⟩, .ping (node 1)⟩, .update ⟨1, 0⟩, .answer 0 env,
    .other env ⟨⟨0, 0⟩, .ping (node 2)⟩, .update ⟨2, 0⟩, .answer 0 env, .install 1]

/-- The same, with the answers in their order. -/
def answeredInTurn : List Action :=
  [.other env ⟨⟨0, 0⟩, .ping (node 1)⟩, .update ⟨1, 0⟩, .answer 0 env, .install 0]

/-- The state after a list of actions. -/
def viewerAfter (actions : List Action) : Viewer := (actions.foldlM (act (node 1)) start).getD start

end Sample

open Sample

theorem view_follows_leader_inTurn : ∃ c, ((viewer (Sample.node 1)).restrict InOrder).Reachable c ∧
      c.view.version = ⟨1, 0⟩ ∧ ∃ s ∈ c.history, Shows (Sample.node 1) s c.view := by
  have hadmits : System.Admits InOrder (act (node 1)) start
      answeredInTurn :=
    .cons trivial rfl (.cons trivial rfl (.cons trivial rfl
      (.cons (by rintro earlier ⟨⟩) rfl trivial)))
  have hreach : ((viewer (node 1)).restrict InOrder).Reachable (viewerAfter answeredInTurn) :=
    ⟨start, rfl, System.run_restrict_of_admits hadmits rfl⟩
  obtain ⟨-, i, j, s, s', -, -, hj, -, hshows⟩ := view_follows_leader hreach (.refl _)
  exact ⟨_, hreach, rfl, s', mem_of_getElem? hj, hshows⟩

/-- The view goes back to an epoch it had left. -/
theorem overtaken_answer_installed :
    ∃ c c', (viewer (Sample.node 1)).Reachable c ∧ (viewer (Sample.node 1)).Run c c' ∧
      c.view.version = ⟨2, 0⟩ ∧ c'.view.version = ⟨1, 0⟩ := by
  have hfirst : overtaking.foldlM (act (node 1)) start = some (viewerAfter overtaking) := rfl
  have hlast : [Action.install 0].foldlM (act (node 1)) (viewerAfter overtaking) =
        some (viewerAfter (overtaking ++ [.install 0])) := rfl
  exact ⟨_, _, ⟨start, rfl, System.run_of_foldlM hfirst⟩, System.run_of_foldlM hlast, rfl, rfl⟩

end Noah
