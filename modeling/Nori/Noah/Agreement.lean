import Nori.Noah.Client.Cluster
import Nori.Noah.Meta.Index

/-!
# Clients and nodes agree on placements

Clients and nodes ask the leader and install its answers in their own views, in whatever order the
answers arrive. A node lets a request of a client through when the epoch of the client's view and
the version of the client's table are its own. Pulls install the epoch and the tables of one state
of the leader. The answers to `CreateTable` and `DropTable` install the epoch of the leader and
leave the other tables as they are, so an answer that arrives after the view was replaced by one of
another epoch dates old tables with a new epoch.

A request is built from one state of the client's view and checked later, against the view the
node then has. Nothing is assumed of the versions that parties put into their requests to the
leader.

## Main results

* `Deployment.Recorded.run`: with timely answers, every table in a view is that of a state the
  leader had at the epoch of the view
* `routed_of_accepted`: then a node that accepts a request has the partition the client sent it to
-/

namespace Noah

open Butil Container Transition NodeServer Option List Cluster

/-- The parties that keep a view. -/
inductive Party (κ : Type)
  | client (c : κ)
  | node (n : Node)
deriving DecidableEq

/-- An answer of the leader on its way back. -/
structure Reply (κ : Type) where
  party : Party κ
  request : MetaCmdRequest
  response : MetaCmdResponse

/-- The view of a party after it installed an answer. -/
def Reply.install {κ : Type} (reply : Reply κ) (view : Common.MetaInfo) : Common.MetaInfo :=
  -- a party that is refused keeps its view and asks again later
  if reply.response.status ≠ .ok then view
  else match reply.party, reply.request.cmd with
    | .client _, .pull _ _ _ => updateTableInfo reply.response
    | .client _, .dropTable names => dropTable reply.response.version names view
    | .node _, .pull _ _ _ => (updateMetaInfo reply.response view).1
    | .node _, .init table => installCreated reply.response.version table view
    | _, _ => view

/-- The leader, the views, and the answers under way. -/
structure Deployment (κ : Type) where
  server : MetaServer
  views : Party κ → Common.MetaInfo
  replies : List (Reply κ)

/-- The tables that are created are numbered. -/
def MetaCmd.Numbered : MetaCmd → Prop
  | .init table => table.Numbered
  | _ => True

instance : DecidablePred MetaCmd.Numbered
  | .init table => inferInstanceAs (Decidable table.Numbered)
  | .ping _ | .pull _ _ _ | .listTable | .listNode | .dropTable _ | .downNodes _ | .migrate _
  | .unsupported => .isTrue trivial

namespace Deployment

/-- The leader deals with a request of a party, or an answer reaches its party. -/
inductive Action (κ : Type)
  | apply (party : Party κ) (env : Env) (request : MetaCmdRequest)
  | deliver (i : ℕ)

variable {κ : Type} [DecidableEq κ]

def act (c : Deployment κ) : Action κ → Option (Deployment κ)
  | .apply party env request =>
    -- node servers send the only creations, and number the partitions
    if request.cmd.Numbered then
      (c.server.apply env request).map fun (response, server) =>
        { c with server := server, replies := c.replies ++ [⟨party, request, response⟩] }
    else none
  | .deliver i =>
    c.replies[i]?.map fun reply =>
      { c with
        views := Function.update c.views reply.party (reply.install (c.views reply.party))
        replies := c.replies.eraseIdx i }

/-- Nobody knows anything. -/
def start : Deployment κ := ⟨MetaServer.start, fun _ => .empty, []⟩

end Deployment

open Deployment

/-- The interleavings of requests and answers. -/
def deployment (κ : Type) [DecidableEq κ] : System (Deployment κ) (Action κ) := .ofStep start act

namespace Reply

variable {κ : Type}

/-- The tables an answer edits in a view that it does not replace. -/
def patches (reply : Reply κ) : Option (List Bytes) :=
  match reply.party, reply.request.cmd with
  | .client _, .dropTable names => some names
  | .node _, .init table => some [table.name]
  | _, _ => none

/-- An answer that patches a view finds it at its own epoch, or without any other table. -/
def Timely (reply : Reply κ) (view : Common.MetaInfo) : Prop :=
  reply.response.status = .ok → ∀ names ∈ reply.patches,
    view.version.epoch = reply.response.version.epoch ∨
      ∀ name table, view.tableInfo.lookup name = some table → name ∈ names

end Reply

/-- Every answer is timely where it arrives. -/
def Deployment.Timely {κ : Type} (c : Deployment κ) : Action κ → Prop
  | .deliver i => ∀ reply ∈ c.replies[i]?, reply.Timely (c.views reply.party)
  | _ => True

/-! ## The record -/

/-- What every state of the leader satisfies. -/
structure MetaInfo.Tidy (s : MetaInfo) : Prop where
  bounded : s.VersionBounded
  keyed : s.Keyed
  numbered : s.Numbered

section Record

variable {κ : Type} {past past' : Set MetaInfo}

/-- A copy of a state of the past, as far as versions and tables go. -/
def MetaInfo.CopyIn (past : Set MetaInfo) (snapshot : MetaInfoSnapshot) : Prop :=
  ∃ s ∈ past, snapshot.version = s.version ∧ snapshot.tableInfo = s.tableInfo

/-- The state of a leader and its cached snapshot are on record. -/
structure MetaServer.Recorded (past : Set MetaInfo) (server : MetaServer) : Prop where
  current : server.metaInfo ∈ past
  snapshot : ∀ snapshot ∈ server.snapshot, MetaInfo.CopyIn past snapshot

/-- The tables that an answer has for a view. -/
def Reply.tables (reply : Reply κ) : List Table :=
  match reply.request.cmd with
  | .pull _ _ _ => reply.response.info
  | .init table => [{ table with version := reply.response.version.version }]
  | _ => []

/-- The tables of an answer are those of a state at its epoch. -/
def Reply.Recorded (past : Set MetaInfo) (reply : Reply κ) : Prop :=
  reply.response.status = .ok → ∀ t ∈ reply.tables, ∃ s ∈ past,
    s.version.epoch = reply.response.version.epoch ∧ s.tableInfo.lookup t.name = some t

/-- The tables of a view are those of states at its epoch. -/
def Common.MetaInfo.Recorded (past : Set Noah.MetaInfo) (view : Common.MetaInfo) : Prop :=
  ∀ name table, view.tableInfo.lookup name = some table → ∃ s ∈ past,
    s.version.epoch = view.version.epoch ∧
      ∃ t, s.tableInfo.lookup name = some t ∧ table = .ofMessage t

/-- A deployment whose leader went through the states `past`. -/
structure Deployment.Recorded (past : Set MetaInfo) (c : Deployment κ) : Prop where
  trail : Trail Fence past c.server.metaInfo
  tidy : ∀ s ∈ past, s.Tidy
  server : c.server.Recorded past
  replies : ∀ reply ∈ c.replies, reply.Recorded past
  views : ∀ party, (c.views party).Recorded past

theorem MetaInfo.CopyIn.mono {snapshot : MetaInfoSnapshot} (hle : past ⊆ past')
    (h : MetaInfo.CopyIn past snapshot) : MetaInfo.CopyIn past' snapshot := by
  obtain ⟨s, hs, hcopy⟩ := h
  exact ⟨s, hle hs, hcopy⟩

theorem Reply.Recorded.mono {reply : Reply κ} (hle : past ⊆ past') (h : reply.Recorded past) :
    reply.Recorded past' := by
  intro hok t ht
  obtain ⟨s, hs, hcopy⟩ := h hok t ht
  exact ⟨s, hle hs, hcopy⟩

theorem Common.MetaInfo.Recorded.mono {past past' : Set Noah.MetaInfo} {view : Common.MetaInfo}
    (hle : past ⊆ past') (h : view.Recorded past) : view.Recorded past' := by
  intro name table htable
  obtain ⟨s, hs, hcopy⟩ := h name table htable
  exact ⟨s, hle hs, hcopy⟩

end Record

/-! ## The leader -/

section Leader

variable {past : Set MetaInfo} {env : Env} {request : MetaCmdRequest} {s s' : MetaServer}
  {response : MetaCmdResponse}

theorem MetaServer.effect_of_apply (h : s.apply env request = some (response, s')) :
    s'.metaInfo = s.metaInfo ∨
      ∃ op, request.op = some op ∧ Effect env s.metaInfo op s'.metaInfo := by
  unfold apply at h
  split at h
  case h_4 =>
    cases hop : request.op with
    | none => exact .inl (metaInfo_of_dealRequest hop h)
    | some op => exact .inr ⟨op, rfl, MetaInfo.effect_of_apply (apply_of_dealRequest hop h)⟩
  all_goals
    cases h
    exact .inl (getMetaInfoSnapshot_metaInfo s)

theorem MetaServer.fence_of_apply (h : s.apply env request = some (response, s')) :
    Fence s.metaInfo s'.metaInfo := by
  rcases effect_of_apply h with heq | ⟨op, -, heffect⟩
  · exact heq ▸ Fence.refl _
  · exact Fence.effect heffect

theorem MetaInfo.Tidy.apply (hnumbered : request.cmd.Numbered)
    (h : s.apply env request = some (response, s')) (hs : s.metaInfo.Tidy) : s'.metaInfo.Tidy := by
  rcases MetaServer.effect_of_apply h with heq | ⟨op, hop, heffect⟩
  · exact heq ▸ hs
  · refine ⟨hs.bounded.effect heffect, hs.keyed.effect heffect, hs.numbered.effect ?_ heffect⟩
    rintro info table rfl
    obtain ⟨version, cmd⟩ := request
    cases cmd with
    | init created =>
      cases hop
      exact hnumbered
    | ping _ | dropTable _ | downNodes _ | migrate _ | pull _ _ _ | listTable | listNode
    | unsupported => cases hop

namespace MetaServer.Recorded

theorem getMetaInfoSnapshot (h : s.Recorded past) :
    MetaInfo.CopyIn past s.getMetaInfoSnapshot.1 ∧ s.getMetaInfoSnapshot.2.Recorded past := by
  have hcurrent : MetaInfo.CopyIn past s.metaInfo.getSnapshot := ⟨_, h.current, rfl, rfl⟩
  unfold MetaServer.getMetaInfoSnapshot
  split
  · rename_i snapshot hsnapshot
    split
    · exact ⟨hcurrent, h.current, fun _ hmem => some.inj hmem ▸ hcurrent⟩
    -- an unchanged copy may be older than the state, but is on record
    · exact ⟨h.snapshot snapshot hsnapshot, h⟩
  · exact ⟨hcurrent, h.current, fun _ hmem => some.inj hmem ▸ hcurrent⟩

theorem record (h : s.Recorded past) (hsnapshot : s'.snapshot = s.snapshot) :
    s'.Recorded (insert s'.metaInfo past) where
  current := Set.mem_insert _ past
  snapshot snapshot hmem := (h.snapshot snapshot (hsnapshot ▸ hmem)).mono (Set.subset_insert _ _)

theorem dealRequest (hdeal : s.dealRequest env request = some (response, s'))
    (h : s.Recorded past) : s'.Recorded (insert s'.metaInfo past) := by
  obtain ⟨version, cmd⟩ := request
  cases cmd with
  | ping node =>
    simp only [MetaServer.dealRequest, dealPing] at hdeal
    let pinged : MetaServer := { s.getMetaInfoSnapshot.2 with
      metaInfo := (s.getMetaInfoSnapshot.2.metaInfo.updateNode env node).2 }
    have hpinged : pinged.Recorded (insert pinged.metaInfo past) :=
      h.getMetaInfoSnapshot.2.record rfl
    split at hdeal
    · -- the snapshot is asked for again, to choose a migration
      obtain ⟨r, -, hresult⟩ := map_eq_some_iff.mp hdeal
      have hagain := hpinged.getMetaInfoSnapshot.2
      rw [← (Prod.mk.inj hresult).2, getMetaInfoSnapshot_metaInfo]
      exact ⟨by simp, hagain.snapshot⟩
    · cases hdeal
      exact hpinged
  | init _ | dropTable _ | downNodes _ =>
    simp only [MetaServer.dealRequest, dealInit, dealDropTable, dealDownNodes] at hdeal
    split_ifs at hdeal <;> cases hdeal <;> exact h.record rfl
  | migrate unit =>
    obtain ⟨⟨info, metaInfo⟩, -, hresult⟩ := map_eq_some_iff.mp hdeal
    simp only at hresult
    split_ifs at hresult <;> cases hresult <;> exact h.record rfl
  | pull _ _ _ | listTable | listNode | unsupported =>
    cases hdeal
    exact h.record rfl

theorem pullSnapshot {snapshot : MetaInfoSnapshot} (node : Option Node)
    (h : MetaInfo.CopyIn past snapshot) :
    MetaInfo.CopyIn past (Noah.pullSnapshot snapshot node) := by
  obtain ⟨t, ht, hversion, htables⟩ := h
  unfold Noah.pullSnapshot
  split
  · exact ⟨t, ht, hversion, htables⟩
  · split <;> exact ⟨t, ht, hversion, htables⟩

theorem apply (happly : s.apply env request = some (response, s')) (h : s.Recorded past) :
    s'.Recorded (insert s'.metaInfo past) := by
  have hget := h.getMetaInfoSnapshot
  unfold MetaServer.apply at happly
  split at happly
  · rename_i node names all _
    cases happly
    -- the cached object is the one that the pull extends
    have hextended : MetaServer.Recorded past { s.getMetaInfoSnapshot.2 with
        snapshot := some (Noah.pullSnapshot s.getMetaInfoSnapshot.1 node) } :=
      ⟨hget.2.current, fun _ hmem => some.inj hmem ▸ pullSnapshot node hget.1⟩
    exact hextended.record rfl
  · cases happly
    exact hget.2.record rfl
  · cases happly
    exact hget.2.record rfl
  · exact h.dealRequest happly

end MetaServer.Recorded

theorem lookup_of_mem_pullTables {snapshot : MetaInfoSnapshot} {node : Option Node}
    {names : List Bytes} {all : Bool} {t : Table} (h : t ∈ pullTables snapshot node names all) :
    ∃ name, snapshot.tableInfo.lookup name = some t := by
  unfold pullTables at h
  split at h
  · obtain ⟨name, -, hname⟩ := mem_filterMap.mp h
    exact ⟨name, hname⟩
  · split_ifs at h
    · obtain ⟨name, -, hname⟩ := mem_filterMap.mp h
      exact ⟨name, hname⟩
    · obtain ⟨e, he, rfl⟩ := mem_map.mp h
      exact ⟨e.1, AList.mem_lookup_iff.mpr he⟩
    · cases h

section

variable {version : VersionInfo} {table : Table} (h : s.dealInit env version table = (response, s'))
  (hok : response.status = .ok)
include h hok

theorem addTable_of_dealInit_ok :
    version = s.metaInfo.version ∧ s'.metaInfo = s.metaInfo.addTable env table ∧
      response.version = (s.metaInfo.addTable env table).version := by
  have hinfo : response.version = (s.metaInfo.createTable env version table).1 ∧
      0 < response.version.epoch ∧ s'.metaInfo = (s.metaInfo.createTable env version table).2 := by
    unfold MetaServer.dealInit at h
    simp only at h
    split_ifs at h with hpos <;> cases h
    · exact ⟨rfl, hpos, rfl⟩
    · cases hok
    · cases hok
  obtain ⟨hresponse, hpos, hmeta⟩ := hinfo
  rw [hmeta, hresponse]
  rw [hresponse] at hpos
  -- a positive epoch in the answer means that the table was stored
  unfold MetaInfo.createTable at hpos ⊢
  split_ifs at hpos ⊢ with hversion
  · cases hpos
  · split at hpos
    · cases hpos
    · exact ⟨not_not.mp hversion, rfl, rfl⟩

/-- The table of a creation that is answered with `OK` is stored under the version of the
answer. -/
theorem lookup_of_dealInit_ok :
    s'.metaInfo.version = response.version ∧ s'.metaInfo.tableInfo.lookup table.name =
      some { table with version := response.version.version } := by
  obtain ⟨-, hmeta, hresponse⟩ := addTable_of_dealInit_ok h hok
  rw [hmeta, hresponse, lookup_addTable, if_pos rfl]
  exact ⟨rfl, rfl⟩

end

theorem Reply.recorded_of_apply {κ : Type} {party : Party κ} (htidy : ∀ t ∈ past, t.Tidy)
    (happly : s.apply env request = some (response, s')) (h : s.Recorded past) :
    Reply.Recorded (insert s'.metaInfo past) ⟨party, request, response⟩ := by
  intro hok t ht
  obtain ⟨version, cmd⟩ := request
  cases cmd with
  | pull node names all =>
    have hresponse : pullResponse s.getMetaInfoSnapshot.1 node names all = response :=
      (Prod.mk.inj (some.inj happly)).1
    subst hresponse
    obtain ⟨r, hr, hversion, htables⟩ := h.getMetaInfoSnapshot.1
    obtain ⟨name, hname⟩ := lookup_of_mem_pullTables ht
    rw [htables] at hname
    -- the view files a table under its own name, the leader under the key
    have hkey := (htidy r hr).keyed name t hname
    exact ⟨r, Set.mem_insert_of_mem _ hr, congrArg VersionInfo.epoch hversion.symm, hkey ▸ hname⟩
  | init table =>
    obtain ⟨hversion, htable⟩ := lookup_of_dealInit_ok (some.inj happly) hok
    rw [mem_singleton.mp ht]
    exact ⟨_, Set.mem_insert _ _, congrArg VersionInfo.epoch hversion, htable⟩
  | ping _ | dropTable _ | downNodes _ | migrate _ | listTable | listNode | unsupported => cases ht

end Leader

/-! ## The views -/

theorem NodeServer.updateMetaInfo_fst (response : MetaCmdResponse) (view : Common.MetaInfo) :
    (updateMetaInfo response view).1 = updateTableInfo response := by
  simp only [updateMetaInfo, installTables_fst, updateTableInfo]

namespace Common.MetaInfo.Recorded

variable {κ : Type} {past : Set Noah.MetaInfo} {reply : Reply κ} {view : Common.MetaInfo}

theorem patched (hok : reply.response.status = .ok) (htimely : reply.Timely view)
    {names : List Bytes} (hnames : reply.patches = some names) (h : view.Recorded past)
    {name : Bytes} {table : Common.Table} (htable : view.tableInfo.lookup name = some table)
    (hother : name ∉ names) : ∃ s ∈ past, s.version.epoch = reply.response.version.epoch ∧
      ∃ t, s.tableInfo.lookup name = some t ∧ table = .ofMessage t := by
  -- either the other tables are at the right epoch already, or there are none
  rcases htimely hok names hnames with hepoch | honly
  · exact hepoch ▸ h name table htable
  · exact absurd (honly name table htable) hother

theorem install (hreply : reply.Recorded past) (htimely : reply.Timely view)
    (h : view.Recorded past) : (reply.install view).Recorded past := by
  by_cases hok : reply.response.status = .ok
  · have hpulled : ∀ node names all, reply.request.cmd = .pull node names all →
        (updateTableInfo reply.response).Recorded past := by
      intro node names all hcmd name table htable
      obtain ⟨t, ht, rfl, rfl⟩ := lookup_updateTableInfo htable
      have hmem : t ∈ reply.tables := by rwa [Reply.tables, hcmd]
      obtain ⟨s, hs, hepoch, hlookup⟩ := hreply hok t hmem
      exact ⟨s, hs, hepoch, t, hlookup, rfl⟩
    unfold Reply.install
    rw [if_neg (not_not.mpr hok)]
    split
    · rename_i hcmd
      exact hpulled _ _ _ hcmd
    · rename_i names hparty hcmd
      have hnames : reply.patches = some names := by rw [Reply.patches, hparty, hcmd]
      intro name table htable
      rw [lookup_dropTable] at htable
      split at htable
      · cases htable
      · rename_i hother
        exact h.patched hok htimely hnames htable hother
    · rename_i hcmd
      rw [updateMetaInfo_fst]
      exact hpulled _ _ _ hcmd
    · rename_i created hparty hcmd
      have hnames : reply.patches = some [created.name] := by rw [Reply.patches, hparty, hcmd]
      intro name table htable
      rw [installCreated, UnorderedMap.lookup_assign] at htable
      split at htable
      · rename_i hname
        cases htable
        obtain ⟨s, hs, hepoch, hlookup⟩ := hreply hok _ (by rw [Reply.tables, hcmd]; exact
          mem_cons_self)
        exact ⟨s, hs, hepoch, _, hname ▸ hlookup, rfl⟩
      · rename_i hother
        exact h.patched hok htimely hnames htable (by simpa using hother)
    · exact h
  · rw [Reply.install, if_pos hok]
    exact h

end Common.MetaInfo.Recorded

/-! ## Runs -/

namespace Deployment

variable {κ : Type} {past : Set MetaInfo} {c c' : Deployment κ}

theorem recorded_start : Recorded {MetaInfo.start} (start : Deployment κ) := by
  have htidy : MetaInfo.start.Tidy := by
    constructor <;> intro name table htable <;> simp [MetaInfo.start] at htable
  refine ⟨Trail.start Fence.refl _, ?_, ⟨rfl, ?_⟩, ?_, ?_⟩
  · rintro s rfl
    exact htidy
  · intro snapshot hsnapshot
    cases hsnapshot
  · intro reply hreply
    cases hreply
  · intro party name table htable
    simp [start, Common.MetaInfo.empty] at htable

theorem Recorded.table_eq (h : c.Recorded past) {view view' : Common.MetaInfo}
    (hview : view.Recorded past) (hview' : view'.Recorded past)
    (hepoch : view.version.epoch = view'.version.epoch) {name : Bytes} {table table' : Common.Table}
    (htable : view.tableInfo.lookup name = some table)
    (htable' : view'.tableInfo.lookup name = some table')
    (hversion : table.version = table'.version) :
    ∃ t : Table, t.Numbered ∧ table = .ofMessage t ∧ table' = .ofMessage t := by
  obtain ⟨s, hs, hsepoch, t, ht, rfl⟩ := hview name table htable
  obtain ⟨s', hs', hsepoch', t', ht', rfl⟩ := hview' name table' htable'
  have hsame : s.version.epoch = s'.version.epoch := by rw [hsepoch, hsepoch', hepoch]
  have heq : t = t' := by
    -- the states behind the two tables lie on one run of the leader: one of them came first
    rcases h.trail.total s hs s' hs' with hfence | hfence
    · exact hfence.table_eq (h.tidy s hs).bounded hsame ht ht' hversion
    · exact (hfence.table_eq (h.tidy s' hs').bounded hsame.symm ht' ht hversion.symm).symm
  subst heq
  exact ⟨t, (h.tidy s hs).numbered name t ht, rfl, rfl⟩

variable [DecidableEq κ]

theorem Recorded.step {a : Action κ} (htimely : c.Timely a) (hact : c.act a = some c')
    (h : c.Recorded past) : ∃ past', past ⊆ past' ∧ c'.Recorded past' := by
  cases a with
  | apply party env request =>
    simp only [act] at hact
    split_ifs at hact with hnumbered
    obtain ⟨⟨response, server⟩, happly, rfl⟩ := map_eq_some_iff.mp hact
    -- what was on record stays there, so only the new state and its answer are looked at
    have hle : past ⊆ insert server.metaInfo past := Set.subset_insert _ _
    refine ⟨insert server.metaInfo past, hle, ?_, ?_, h.server.apply happly, ?_, ?_⟩
    · exact h.trail.extend Fence.refl (fun _ _ _ => Fence.trans) (MetaServer.fence_of_apply happly)
    · rintro s (rfl | hs)
      · exact (h.tidy _ h.trail.last).apply hnumbered happly
      · exact h.tidy s hs
    · exact forall_mem_append.mpr ⟨fun reply hreply => (h.replies reply hreply).mono hle,
        forall_mem_singleton.mpr (Reply.recorded_of_apply h.tidy happly h.server)⟩
    · exact fun party => (h.views party).mono hle
  | deliver i =>
    obtain ⟨reply, hreply, rfl⟩ := map_eq_some_iff.mp hact
    refine ⟨past, subset_rfl, h.trail, h.tidy, h.server, ?_, ?_⟩
    · exact fun other hother => h.replies other (mem_of_mem_eraseIdx hother)
    · refine (Function.forall_update_iff _ fun _ (view : Common.MetaInfo) => view.Recorded past).mpr
        ⟨?_, fun party _ => h.views party⟩
      exact (h.views reply.party).install (h.replies reply (mem_of_getElem? hreply))
        (htimely reply hreply)

/-- With timely answers, every table in a view is that of a state the leader had at the epoch of the
view. -/
theorem Recorded.run (hrun : ((deployment κ).restrict Timely).Run c c') (h : c.Recorded past) :
    ∃ past', past ⊆ past' ∧ c'.Recorded past' := by
  refine hrun.invariant (P := fun c => ∃ past', past ⊆ past' ∧ c.Recorded past') ?_
    ⟨past, subset_rfl, h⟩
  rintro c a c' ⟨htimely, hact⟩ ⟨past₁, hle₁, h₁⟩
  obtain ⟨past₂, hle₂, h₂⟩ := h₁.step htimely hact
  exact ⟨past₂, hle₁.trans hle₂, h₂⟩

end Deployment

theorem NodeServer.checkEpoch_eq_some {epoch version : ℤ} {tableName : Bytes} {id : ℤ}
    {view : Common.MetaInfo} {p : Common.Partition}
    (h : checkEpoch epoch version tableName id view = (true, some p)) :
    view.version.epoch = epoch ∧ ∃ table, view.tableInfo.lookup tableName = some table ∧
      table.version = version ∧ table.getPartitionById id = some p := by
  unfold checkEpoch at h
  split_ifs at h with hepoch
  · refine ⟨hepoch, ?_⟩
    split at h
    · cases h
    · rename_i table htable
      split_ifs at h with hversion
      · cases h
      · rw [not_not] at hversion
        exact ⟨table, htable, hversion.symm, (Prod.mk.inj h).2⟩
  · cases h

/-- **Clients and nodes agree.** In every run in which answers to `CreateTable` and `DropTable` are
timely, a request for split `i` that a client builds from its view, and a node accepts at any later
time, is filled by the node with the partition the client sent it to: its master and its slaves are
the same. -/
theorem routed_of_accepted {κ : Type} [DecidableEq κ] {c c' : Deployment κ}
    (hreach : ((deployment κ).restrict Timely).Reachable c)
    (hrun : ((deployment κ).restrict Timely).Run c c') (client : κ) (node : Node)
    (tableName : Bytes) (i : ℕ) {info : RequestInfo} {p : Common.Partition}
    (hfind : findTable tableName (c.views (.client client)) = some info)
    (haccept : NodeServer.checkEpoch info.version.epoch info.tableInfo.version tableName i
      (c'.views (.node node)) = (true, some p)) :
    ∃ q, info.tableInfo.routed i = some q ∧ p.master = q.master ∧ p.slaves = q.slaves := by
  obtain ⟨c₀, rfl, hrun₀⟩ := hreach
  obtain ⟨past, -, hc⟩ := recorded_start.run hrun₀
  -- the record when the node checks extends the record when the client read its view
  obtain ⟨past', hle, hc'⟩ := hc.run hrun
  obtain ⟨table, htable, rfl⟩ := map_eq_some_iff.mp hfind
  obtain ⟨hepoch, table', htable', hversion, hp⟩ := checkEpoch_eq_some haccept
  obtain ⟨t, hnumbered, rfl, rfl⟩ := hc'.table_eq ((hc.views _).mono hle) (hc'.views _)
    hepoch.symm htable htable' hversion.symm
  rw [← hnumbered.routed_eq] at hp
  exact ⟨p, hp, rfl, rfl⟩

/-! ## A drop that is answered late -/

namespace Sample

/-- A party sends a request with the version of its view, and the leader deals with it. -/
def ask (party : Party Unit) (cmd : MetaCmd) (c : Deployment Unit) : Deployment Unit :=
  (c.act (.apply party env ⟨(c.views party).version, cmd⟩)).getD c

def deliver (i : ℕ) (c : Deployment Unit) : Deployment Unit := (c.act (.deliver i)).getD c

/-- A table with one slave, as the node that created it and nobody else knows it. -/
def createdByNode : Deployment Unit :=
  deliver 2 <| ask (.node (node 1)) (.init (table 2 [⟨0, .active, some (node 1), [node 2]⟩])) <|
    deliver 2 <| ask (.node (node 1)) (.pull (some (node 1)) [] false) <|
      ask (.node (node 2)) (.ping (node 2)) <| ask (.node (node 1)) (.ping (node 1)) .start

/-- The client has pulled the table. -/
def pulled : Deployment Unit :=
  deliver 2 (ask (.client ()) (.pull none [bytes "t"] false) createdByNode)

/-- Two threads of the client pull, one before the slave goes down and one after. The answer to the
first pull arrives when the second thread has already used the new epoch for a drop, and the answer
to the drop arrives last. -/
def lateDrop : Deployment Unit :=
  deliver 3 <| deliver 2 <| ask (.client ()) (.dropTable [bytes "u"]) <|
    deliver 4 <| ask (.client ()) (.pull none [bytes "t"] false) <|
      ask (.node (node 1)) (.downNodes [node 2]) <|
        ask (.client ()) (.pull none [bytes "t"] false) createdByNode

/-- The node pulls what the leader has now. -/
def lateDropPulled : Deployment Unit :=
  deliver 3 (ask (.node (node 1)) (.pull (some (node 1)) [] false) lateDrop)

variable {C : Deployment Unit → Action Unit → Prop} {c : Deployment Unit}

theorem run_act {a : Action Unit} (hC : C c a) (h : (c.act a).isSome = true) :
    ((deployment Unit).restrict C).Run c ((c.act a).getD c) := by
  obtain ⟨c', hc'⟩ := isSome_iff_exists.mp h
  rw [hc', getD_some]
  exact .head ⟨hC, hc'⟩ (.refl _)

theorem timely_pull {i : ℕ} {reply : Reply Unit} (hreply : c.replies[i]? = some reply)
    (hpatches : reply.patches = none) : c.Timely (.deliver i) := by
  intro other hother
  rw [hreply, mem_some_iff] at hother
  intro _ names hnames
  rw [← hother, hpatches] at hnames
  cases hnames

theorem reachable_createdByNode : ((deployment Unit).restrict Timely).Reachable createdByNode := by
  unfold createdByNode
  refine .run (.start rfl) (.trans ?_ (run_act ?_ rfl))
  · refine .trans ?_ (run_act trivial rfl)
    refine .trans ?_ (run_act (timely_pull rfl rfl) rfl)
    iterate 2 refine .trans ?_ (run_act trivial rfl)
    exact run_act trivial rfl
  · rintro reply ⟨⟩ - names -
    exact .inl rfl

end Sample

open Sample

theorem routed_of_accepted_created :
    ∃ info p q, findTable (bytes "t") (pulled.views (.client ())) = some info ∧
      NodeServer.checkEpoch info.version.epoch info.tableInfo.version (bytes "t") (0 : ℕ)
        (pulled.views (.node (node 1))) = (true, some p) ∧
      info.tableInfo.routed 0 = some q ∧ p.master = q.master ∧ p.slaves = q.slaves := by
  have hrun : ((deployment Unit).restrict Timely).Run createdByNode pulled := by
    unfold pulled
    refine .trans ?_ (run_act (timely_pull rfl rfl) rfl)
    exact run_act trivial rfl
  obtain ⟨q, hq⟩ := routed_of_accepted (reachable_createdByNode.run hrun) (.refl _) ()
    (node 1) (bytes "t") 0 rfl rfl
  exact ⟨_, _, q, rfl, rfl, hq⟩

/-- The client routes by the placement from before the failure, and the node accepts the request
with the placement from after it. -/
theorem lateDrop_accepted : (deployment Unit).Reachable lateDropPulled ∧
    ∃ info p q, findTable (bytes "t") (lateDropPulled.views (.client ())) = some info ∧
      NodeServer.checkEpoch info.version.epoch info.tableInfo.version (bytes "t") (0 : ℕ)
        (lateDropPulled.views (.node (node 1))) = (true, some p) ∧
      info.tableInfo.routed 0 = some q ∧ p.slaves ≠ q.slaves := by
  have hrun : ((deployment Unit).restrict fun _ _ => True).Run createdByNode lateDropPulled := by
    unfold lateDropPulled lateDrop
    iterate 7 refine .trans ?_ (run_act trivial rfl)
    exact .trans (run_act trivial rfl) (run_act trivial rfl)
  refine ⟨reachable_createdByNode.of_restrict.run hrun.of_restrict, ?_⟩
  exact ⟨_, _, _, rfl, rfl, rfl, by decide⟩

end Noah
