import Nori.Noah.Node.Server

/-!
# Dropping tables in the background

A pull that no longer has a table queues the table for a background thread, which takes the caches
of all its partitions out of `caches_` and clears them. It finds them by name, whenever it gets to
run. If by then the node has the table back, or another table of its name, and has written to it,
the entries that were written go too. A drop only spares what was written after it was queued if no
table of its names comes back before it is done.

Every critical section is a step: installing a pull or a creation, the check of a `Set`, finding its
cache, writing, `ClearTables`, and clearing one cache. A drop and a `Set` carry a ticket, the order
in which they were queued and checked.
-/

namespace Noah

open Butil Container Transition NodeServer List Option UnorderedMap Function

/-- `DropTabler`: after `ClearTables` it holds the caches that are left to clear. -/
structure DropTabler where
  ticket : ℕ
  tables : List Common.Table
  caches : Option (List ℕ)

/-- The names of the tables to drop. -/
def DropTabler.names (d : DropTabler) : List Bytes := d.tables.map Common.Table.tableName

/-- A `Set` past its check: the partition, and its cache once it was found. -/
structure SetCall where
  ticket : ℕ
  tableName : Bytes
  id : Int32
  cache : Option ℕ

/-- A node server as far as drops and writes go. Caches are shared pointers: a thread that holds one
can still use it when it is no longer in `caches_`. -/
structure DataServer where
  view : Common.MetaInfo
  caches : UnorderedMap Bytes ℕ
  heap : ℕ → Cache
  next : ℕ
  drops : List DropTabler
  sets : List SetCall
  acknowledged : List SetCall
  ticket : ℕ

/-- The cache names of the partitions of some tables, in the order of the loops of `ClearTables`. -/
def cacheNames (tables : List Common.Table) : List Bytes :=
  tables.flatMap fun t => (List.range t.partitionNum).map fun i =>
    tableInfoString t.tableName (Int32.ofNat i)

/-- `ClearTables`: the caches that are found are taken out. -/
def clearTables (names : List Bytes) (caches : UnorderedMap Bytes ℕ) :
    UnorderedMap Bytes ℕ × List ℕ :=
  names.foldl (fun st name =>
    match st.1.lookup name with
    | some p => (st.1.erase name, st.2 ++ [p])
    | none => st) (caches, [])

namespace DataServer

/-- The value of a key in a partition, as a read finds it. -/
def value (c : DataServer) (tableName : Bytes) (id : Int32) (key : Bytes) : Option Bytes :=
  (c.caches.lookup (tableInfoString tableName id)).bind fun p => (c.heap p).value key

inductive Action
  | update (response : MetaCmdResponse)
  | create (version : VersionInfo) (table : Table)
  | check (header : WriteHeader)
  | getCache (i : ℕ)
  | write (i : ℕ) (now : Int32) (keyValues : UnorderedMap Bytes Bytes) (ttl : Int32)
  | clearTables (i : ℕ)
  | clear (i : ℕ)

/-- `GetCache(table_name, id, true)`. -/
def getCache (tableName : Bytes) (id : Int32) (c : DataServer) : ℕ × DataServer :=
  match c.caches.lookup (tableInfoString tableName id) with
  | some p => (p, c)
  | none => (c.next, { c with
      caches := c.caches.insert (tableInfoString tableName id) c.next
      heap := update c.heap c.next .empty
      next := c.next + 1 })

def act (c : DataServer) : Action → Option DataServer
  -- `UpdateMetaInfo` on an answer with status `OK`
  | .update response =>
    let (view, dropped) := updateMetaInfo response c.view
    some { c with
      view := view
      drops := if dropped.entries = [] then c.drops
        else c.drops ++ [⟨c.ticket, dropped.entries.map (·.2), none⟩]
      ticket := c.ticket + 1 }
  | .create version table => some { c with view := installCreated version table c.view }
  -- a `Set` passes `CheckEpoch` and finds its partition active
  | .check header =>
    match NodeServer.checkEpoch header.epoch header.version header.tableName header.id.toInt
      c.view with
    | (true, some p) =>
      if p.id = -1 ∨ Common.State.kSlowDown.rank ≤ p.state.rank then none
      else some { c with
        sets := c.sets ++ [⟨c.ticket, header.tableName, header.id, none⟩]
        ticket := c.ticket + 1 }
    | _ => none
  | .getCache i =>
    c.sets[i]?.map fun w =>
      let (p, c) := c.getCache w.tableName w.id
      { c with sets := c.sets.set i { w with cache := some p } }
  -- `Cache::Set`, after which the answer is `OK`
  | .write i now keyValues ttl =>
    c.sets[i]?.bind fun w => w.cache.map fun p =>
      { c with
        heap := update c.heap p ((c.heap p).set now keyValues ttl)
        sets := c.sets.eraseIdx i
        acknowledged := c.acknowledged ++ [w] }
  | .clearTables i =>
    c.drops[i]?.bind fun d =>
      if d.caches = none then
        let (caches, found) := Noah.clearTables (cacheNames d.tables) c.caches
        some { c with caches := caches, drops := c.drops.set i { d with caches := some found } }
      else none
  -- one cache is cleared, and a drop without caches is done
  | .clear i =>
    c.drops[i]?.bind fun d => d.caches.map fun
      | [] => { c with drops := c.drops.eraseIdx i }
      | p :: ps => { c with
          heap := update c.heap p .empty
          drops := c.drops.set i { d with caches := some ps } }

def start : DataServer := ⟨.empty, ∅, fun _ => .empty, 0, [], [], [], 0⟩

/-- No table comes back while a drop of its name is under way. -/
def Apart (c : DataServer) : Action → Prop
  | .update response => ∀ table ∈ response.info, ∀ d ∈ c.drops, table.name ∉ d.names
  | .create _ table => ∀ d ∈ c.drops, table.name ∉ d.names
  | _ => True

end DataServer

open DataServer

/-- The interleavings of pulls, creations, writes and drops on a node. -/
def dataServer : System DataServer Action := .ofStep start act

/-! ## Caches and names -/

theorem tableName_of_mem_cacheNames {tables : List Common.Table} {tableName : Bytes} {id : Int32}
    (h : tableInfoString tableName id ∈ cacheNames tables) :
    tableName ∈ tables.map Common.Table.tableName := by
  obtain ⟨t, ht, hname⟩ := mem_flatMap.mp h
  obtain ⟨i, -, heq⟩ := mem_map.mp hname
  rw [tableInfoString_inj] at heq
  exact mem_map.mpr ⟨t, ht, heq.1⟩

theorem clearTables_spec (names : List Bytes) (caches : UnorderedMap Bytes ℕ) :
    (∀ key, (clearTables names caches).1.lookup key =
      if key ∈ names then none else caches.lookup key) ∧
    ∀ p ∈ (clearTables names caches).2, ∃ key ∈ names, caches.lookup key = some p := by
  constructor
  · have herase : names.foldl (fun m name => m.erase name) (caches, ([] : List ℕ)).1 =
        (clearTables names caches).1 := by
      refine foldl_hom Prod.fst fun st name => ?_
      cases hname : st.1.lookup name with
      | none => exact AList.ext (kerase_of_notMem_keys (AList.lookup_eq_none.mp hname))
      | some p => rfl
    intro key
    rw [← herase, lookup_foldl_erase]
    congr
  · refine (foldlRecOn (motive := fun st : UnorderedMap Bytes ℕ × List ℕ =>
      (∀ key p, st.1.lookup key = some p → caches.lookup key = some p) ∧
        ∀ p ∈ st.2, ∃ key ∈ names, caches.lookup key = some p) names _
      ⟨fun key p hp => hp, by simp⟩ fun st ⟨hkept, hfound⟩ name hmem => ?_).2
    cases hname : st.1.lookup name with
    | none => exact ⟨hkept, hfound⟩
    | some q =>
      refine ⟨fun key p hp => ?_, forall_mem_append.mpr ⟨hfound, ?_⟩⟩
      · rw [lookup_erase_eq, ite_none_left_eq_some] at hp
        exact hkept key p hp.2
      · exact forall_mem_singleton.mpr ⟨name, hmem, hkept name q hname⟩

/-! ## What every step keeps -/

namespace DataServer

variable {c c' : DataServer}

/-- The writes past their check, acknowledged or not. -/
def calls (c : DataServer) : List SetCall := c.sets ++ c.acknowledged

/-- Every cache has one name, that of the writes that found it. A cache that a drop took out has
none, and no later write found it. -/
structure Owned (c : DataServer) : Prop where
  unique : ∀ key key' p, c.caches.lookup key = some p → c.caches.lookup key' = some p → key = key'
  bounded : ∀ key p, c.caches.lookup key = some p → p < c.next
  found : ∀ w ∈ c.calls, ∀ p ∈ w.cache, p < c.next ∧
    ∀ key, c.caches.lookup key = some p → key = tableInfoString w.tableName w.id
  detached : ∀ d ∈ c.drops, ∀ ps ∈ d.caches, ∀ p ∈ ps, p < c.next ∧
    (∀ key, c.caches.lookup key ≠ some p) ∧
    ∀ w ∈ c.calls, d.ticket < w.ticket → w.cache ≠ some p

/-- No drop under way names a table of the view, or one that was checked after it was queued. -/
structure Ready (c : DataServer) : Prop where
  keyed : ∀ name table, c.view.tableInfo.lookup name = some table → table.tableName = name
  absent : ∀ d ∈ c.drops, ∀ name ∈ d.names, c.view.tableInfo.lookup name = none
  queued : ∀ d ∈ c.drops, d.ticket < c.ticket
  checked : ∀ w ∈ c.calls, w.ticket < c.ticket
  spared : ∀ d ∈ c.drops, ∀ w ∈ c.calls, d.ticket < w.ticket → w.tableName ∉ d.names
  owned : c.Owned

theorem Ready.frame (h : c.Ready) (hview : c'.view = c.view) (hticket : c'.ticket = c.ticket)
    (hdrops : ∀ d' ∈ c'.drops, ∃ d ∈ c.drops, d'.ticket = d.ticket ∧ d'.names = d.names)
    (hcalls : ∀ w' ∈ c'.calls, ∃ w ∈ c.calls, w'.ticket = w.ticket ∧ w'.tableName = w.tableName)
    (howned : c'.Owned) : c'.Ready where
  keyed := hview ▸ h.keyed
  absent d' hd' := by
    obtain ⟨d, hd, -, hnames⟩ := hdrops d' hd'
    rw [hview, hnames]
    exact h.absent d hd
  queued d' hd' := by
    obtain ⟨d, hd, hd', -⟩ := hdrops d' hd'
    rw [hticket, hd']
    exact h.queued d hd
  checked w' hw' := by
    obtain ⟨w, hw, hw', -⟩ := hcalls w' hw'
    rw [hticket, hw']
    exact h.checked w hw
  spared d' hd' w' hw' := by
    obtain ⟨d, hd, hdticket, hnames⟩ := hdrops d' hd'
    obtain ⟨w, hw, hwticket, hname⟩ := hcalls w' hw'
    rw [hdticket, hwticket, hnames, hname]
    exact h.spared d hd w hw
  owned := howned

theorem Ready.start : start.Ready where
  keyed name table h := by simp [DataServer.start, Common.MetaInfo.empty] at h
  absent := nofun
  queued := nofun
  checked := nofun
  spared := nofun
  owned :=
    { unique key _ p h := by simp [DataServer.start] at h
      bounded key p h := by simp [DataServer.start] at h
      found := nofun
      detached := nofun }

theorem Ready.notMem_of_dropped (h : c.Ready) {response : MetaCmdResponse} {k : ℕ} {name : Bytes}
    (hname : name ∈ (DropTabler.mk k ((updateMetaInfo response c.view).2.entries.map
      (·.2)) none).names) : ∀ t ∈ response.info, t.name ≠ name := by
  simp only [DropTabler.names, List.map_map, List.mem_map, comp_apply] at hname
  obtain ⟨⟨key, table⟩, hentry, rfl⟩ := hname
  have hdropped := AList.mem_lookup_iff.mpr hentry
  rw [mem_def, lookup_dropped] at hdropped
  split at hdropped
  · cases hdropped
  · rename_i hnew
    intro t ht heq
    exact hnew (mem_map.mpr ⟨t, ht, heq.trans (h.keyed key table hdropped)⟩)

theorem Ready.update (h : c.Ready) {response : MetaCmdResponse} (hc : c.Apart (.update response))
    (hact : c.act (.update response) = some c') : c'.Ready := by
  cases hact
  have hmem : ∀ d ∈ (if (updateMetaInfo response c.view).2.entries = [] then c.drops
      else c.drops ++ [⟨c.ticket, (updateMetaInfo response c.view).2.entries.map (·.2),
        none⟩]), d ∈ c.drops ∨ d = ⟨c.ticket,
          (updateMetaInfo response c.view).2.entries.map (·.2), none⟩ := by
    intro d hd
    split at hd
    · exact .inl hd
    · exact (mem_append.mp hd).imp_right mem_singleton.mp
  exact {
    keyed name table htable := by
      obtain ⟨t, -, hname, rfl⟩ := installed_of_lookup htable
      exact hname
    absent d hd name hname := by
      have hgone : ∀ t ∈ response.info, t.name ≠ name := by
        rcases hmem d hd with hd | rfl
        · exact fun t ht heq => hc t ht d hd (heq ▸ hname)
        · exact h.notMem_of_dropped hname
      refine eq_none_iff_forall_ne_some.mpr fun table htable => ?_
      obtain ⟨t, ht, hname, -⟩ := installed_of_lookup htable
      exact hgone t ht hname
    queued d hd := by
      rcases hmem d hd with hd | rfl
      · exact Nat.lt_succ_of_lt (h.queued d hd)
      · exact Nat.lt_succ_self _
    checked w hw := Nat.lt_succ_of_lt (h.checked w hw)
    spared d hd w hw hlt := by
      rcases hmem d hd with hd | rfl
      · exact h.spared d hd w hw hlt
      · exact absurd (h.checked w hw) (lt_asymm hlt)
    owned :=
      { unique := h.owned.unique
        bounded := h.owned.bounded
        found := h.owned.found
        detached d hd ps hps := by
          rcases hmem d hd with hd | rfl
          · exact h.owned.detached d hd ps hps
          · cases hps } }

theorem Ready.create (h : c.Ready) {version : VersionInfo} {table : Table}
    (hc : c.Apart (.create version table)) (hact : c.act (.create version table) = some c') :
    c'.Ready := by
  cases hact
  refine { h with
    keyed := ?_
    absent := ?_
    owned := { h.owned with } }
  · intro name t ht
    simp only [installCreated, lookup_assign] at ht
    split at ht
    · rename_i hname
      rw [hname, ← some.inj ht]
      rfl
    · exact h.keyed name t ht
  · intro d hd name hname
    have hother : name ≠ table.name := fun heq => hc d hd (heq ▸ hname)
    simp only [installCreated, lookup_assign, if_neg hother]
    exact h.absent d hd name hname

theorem ne_none_of_checkEpoch {epoch version id : ℤ} {tableName : Bytes} {view : Common.MetaInfo}
    {p : Common.Partition}
    (h : NodeServer.checkEpoch epoch version tableName id view = (true, some p)) :
    view.tableInfo.lookup tableName ≠ none := by
  intro hnone
  unfold NodeServer.checkEpoch at h
  split at h
  · simp [hnone] at h
  · cases h

theorem Ready.check (h : c.Ready) {header : WriteHeader}
    (hact : c.act (.check header) = some c') : c'.Ready := by
  simp only [act] at hact
  split at hact
  case h_2 => cases hact
  case h_1 p hp =>
    split at hact
    · cases hact
    · cases hact
      have hmem : ∀ w ∈ (c.sets ++ [⟨c.ticket, header.tableName, header.id, none⟩]) ++
          c.acknowledged, w ∈ c.calls ∨ w = ⟨c.ticket, header.tableName, header.id, none⟩ := by
        simp only [calls, mem_append, mem_singleton]
        tauto
      refine { h with
        queued d hd := Nat.lt_succ_of_lt (h.queued d hd)
        checked := ?_
        spared := ?_
        owned := ⟨h.owned.unique, h.owned.bounded, ?_, ?_⟩ }
      · intro w hw
        rcases hmem w hw with hw | rfl
        · exact Nat.lt_succ_of_lt (h.checked w hw)
        · exact Nat.lt_succ_self _
      · intro d hd w hw hlt
        rcases hmem w hw with hw | rfl
        · exact h.spared d hd w hw hlt
        -- the table was in the view, so no drop under way names it
        · exact fun hname => ne_none_of_checkEpoch hp (h.absent d hd _ hname)
      · intro w hw p hp
        rcases hmem w hw with hw | rfl
        · exact h.owned.found w hw p hp
        · cases hp
      · intro d hd ps hps p hp
        obtain ⟨hlt, hfree, hother⟩ := h.owned.detached d hd ps hps p hp
        refine ⟨hlt, hfree, fun w hw hwd => ?_⟩
        rcases hmem w hw with hw | rfl
        · exact hother w hw hwd
        · exact nofun

section

variable (tableName : Bytes) (id : Int32) (c : DataServer)

theorem getCache_fields :
    (c.getCache tableName id).2.view = c.view ∧ (c.getCache tableName id).2.drops = c.drops ∧
    (c.getCache tableName id).2.sets = c.sets ∧
    (c.getCache tableName id).2.acknowledged = c.acknowledged ∧
    (c.getCache tableName id).2.ticket = c.ticket := by
  unfold getCache
  split <;> exact ⟨rfl, rfl, rfl, rfl, rfl⟩

theorem lookup_getCache (key : Bytes) : (c.getCache tableName id).2.caches.lookup key =
      if key = tableInfoString tableName id then some (c.getCache tableName id).1
      else c.caches.lookup key := by
  unfold getCache
  split
  · split_ifs with hkey
    · rw [hkey]
      assumption
    · rfl
  · split_ifs with hkey
    · rw [hkey, AList.lookup_insert]
    · rw [AList.lookup_insert_ne hkey]

theorem fst_getCache :
    c.caches.lookup (tableInfoString tableName id) = some (c.getCache tableName id).1 ∧
      (c.getCache tableName id).2.next = c.next ∨
    (c.getCache tableName id).1 = c.next ∧ (c.getCache tableName id).2.next = c.next + 1 := by
  unfold getCache
  split
  · exact .inl ⟨by assumption, rfl⟩
  · exact .inr ⟨rfl, rfl⟩

end

theorem Owned.fst_getCache (h : c.Owned) (tableName : Bytes) (id : Int32) :
    (c.getCache tableName id).1 < (c.getCache tableName id).2.next ∧
    c.next ≤ (c.getCache tableName id).2.next ∧
    (∀ key, c.caches.lookup key = some (c.getCache tableName id).1 →
      key = tableInfoString tableName id) ∧
    ∀ d ∈ c.drops, ∀ ps ∈ d.caches, (c.getCache tableName id).1 ∉ ps := by
  rcases DataServer.fst_getCache tableName id c with ⟨hfound, hnext⟩ | ⟨hnew, hnext⟩
  · rw [hnext]
    refine ⟨h.bounded _ _ hfound, le_rfl, fun key hkey => h.unique _ _ _ hkey hfound, ?_⟩
    exact fun d hd ps hps hmem => (h.detached d hd ps hps _ hmem).2.1 _ hfound
  · rw [hnext, hnew]
    refine ⟨Nat.lt_succ_self _, Nat.le_succ _, fun key hkey => ?_, fun d hd ps hps hmem => ?_⟩
    · exact absurd (h.bounded key _ hkey) (lt_irrefl _)
    · exact absurd (h.detached d hd ps hps _ hmem).1 (lt_irrefl _)

variable {i : ℕ}

theorem Owned.getCache (h : c.Owned) (hact : c.act (.getCache i) = some c') : c'.Owned := by
  obtain ⟨w, hw, rfl⟩ := map_eq_some_iff.mp hact
  obtain ⟨-, hdrops, hsets, hacked, -⟩ := getCache_fields w.tableName w.id c
  obtain ⟨hlt, hnext, hown, hfree⟩ := h.fst_getCache w.tableName w.id
  have hmem : ∀ w' ∈ (c.getCache w.tableName w.id).2.sets.set i
      { w with cache := some (c.getCache w.tableName w.id).1 } ++
        (c.getCache w.tableName w.id).2.acknowledged, w' ∈ c.calls ∨
      w' = { w with cache := some (c.getCache w.tableName w.id).1 } := by
    intro w' hw'
    rw [hsets, hacked] at hw'
    rcases mem_append.mp hw' with hw' | hw'
    · exact (mem_or_eq_of_mem_set hw').imp_left (mem_append_left _)
    · exact .inl (mem_append_right _ hw')
  have hlookup := lookup_getCache w.tableName w.id c
  refine ⟨?_, ?_, ?_, ?_⟩
  · intro key key' p hp hp'
    rw [hlookup] at hp hp'
    split_ifs at hp hp' with hkey hkey' hkey'
    · rw [hkey, hkey']
    · rw [hkey, hown key' (hp'.trans hp.symm)]
    · rw [hkey', hown key (hp.trans hp'.symm)]
    · exact h.unique key key' p hp hp'
  · intro key p hp
    rw [hlookup] at hp
    split_ifs at hp
    · exact some.inj hp ▸ hlt
    · exact (h.bounded key p hp).trans_le hnext
  · intro w' hw' p hp
    rcases hmem w' hw' with hw' | rfl
    · obtain ⟨hpn, hname⟩ := h.found w' hw' p hp
      refine ⟨hpn.trans_le hnext, fun key hkey => ?_⟩
      rw [hlookup] at hkey
      split_ifs at hkey with heq
      -- a cache that was found before is not new, so the name has it already
      · cases hkey
        rcases DataServer.fst_getCache w.tableName w.id c with ⟨hfound, -⟩ | ⟨hnew, -⟩
        · exact hname key (heq ▸ hfound)
        · exact absurd (hnew ▸ hpn) (lt_irrefl _)
      · exact hname key hkey
    · cases hp
      refine ⟨hlt, fun key hkey => ?_⟩
      rw [hlookup] at hkey
      split_ifs at hkey with heq
      · exact heq
      · exact hown key hkey
  · intro d hd ps hps p hp
    rw [hdrops] at hd
    obtain ⟨hpn, hname, hother⟩ := h.detached d hd ps hps p hp
    refine ⟨hpn.trans_le hnext, fun key hkey => ?_, fun w' hw' hdw => ?_⟩
    · rw [hlookup] at hkey
      split_ifs at hkey with heq
      · exact hfree d hd ps hps (some.inj hkey ▸ hp)
      · exact hname key hkey
    · rcases hmem w' hw' with hw' | rfl
      · exact hother w' hw' hdw
      · exact fun hcache => hfree d hd ps hps (some.inj hcache ▸ hp)

variable (h : c.Ready)
include h

theorem Ready.getCache (hact : c.act (.getCache i) = some c') : c'.Ready := by
  have howned := h.owned.getCache hact
  obtain ⟨w, hw, rfl⟩ := map_eq_some_iff.mp hact
  obtain ⟨hview, hdrops, hsets, hacked, hticket⟩ := getCache_fields w.tableName w.id c
  refine h.frame hview hticket ?_ ?_ howned
  · exact fun d hd => ⟨d, hdrops ▸ hd, rfl, rfl⟩
  · intro w' hw'
    simp only [calls, hsets, hacked] at hw' ⊢
    rcases mem_append.mp hw' with hw' | hw'
    · rcases mem_or_eq_of_mem_set hw' with hw' | rfl
      · exact ⟨w', mem_append_left _ hw', rfl, rfl⟩
      · exact ⟨w, mem_append_left _ (mem_of_getElem? hw), rfl, rfl⟩
    · exact ⟨w', mem_append_right _ hw', rfl, rfl⟩

theorem Ready.write {now ttl : Int32} {keyValues : UnorderedMap Bytes Bytes}
    (hact : c.act (.write i now keyValues ttl) = some c') : c'.Ready := by
  obtain ⟨w, hw, hwrite⟩ := bind_eq_some_iff.mp hact
  obtain ⟨p, -, rfl⟩ := map_eq_some_iff.mp hwrite
  have hmem : ∀ w' ∈ c.sets.eraseIdx i ++ (c.acknowledged ++ [w]), w' ∈ c.calls := by
    intro w' hw'
    simp only [calls, mem_append, mem_singleton] at hw' ⊢
    rcases hw' with hw' | hw' | rfl
    · exact .inl (mem_of_mem_eraseIdx hw')
    · exact .inr hw'
    · exact .inl (mem_of_getElem? hw)
  refine h.frame rfl rfl (fun d hd => ⟨d, hd, rfl, rfl⟩) (fun w' hw' => ⟨w', hmem w' hw', rfl, rfl⟩)
    ⟨h.owned.unique, h.owned.bounded, fun w' hw' => h.owned.found w' (hmem w' hw'), ?_⟩
  intro d hd ps hps p hp
  obtain ⟨hlt, hfree, hother⟩ := h.owned.detached d hd ps hps p hp
  exact ⟨hlt, hfree, fun w' hw' => hother w' (hmem w' hw')⟩

theorem Ready.clearTables (hact : c.act (.clearTables i) = some c') : c'.Ready := by
  obtain ⟨d, hd, hclear⟩ := bind_eq_some_iff.mp hact
  split at hclear
  case isFalse => cases hclear
  case isTrue hnone =>
    cases hclear
    have hmem := mem_of_getElem? hd
    obtain ⟨hlookup, hfound⟩ := clearTables_spec (cacheNames d.tables) c.caches
    have hold : ∀ key p, (Noah.clearTables (cacheNames d.tables) c.caches).1.lookup key = some p →
        key ∉ cacheNames d.tables ∧ c.caches.lookup key = some p := by
      intro key p hp
      rw [hlookup] at hp
      split_ifs at hp with hkey
      exact ⟨hkey, hp⟩
    refine h.frame rfl rfl ?_ (fun w hw => ⟨w, hw, rfl, rfl⟩) ⟨?_, ?_, ?_, ?_⟩
    · intro d' hd'
      rcases mem_or_eq_of_mem_set hd' with hd' | rfl
      · exact ⟨d', hd', rfl, rfl⟩
      · exact ⟨d, hmem, rfl, rfl⟩
    · exact fun key key' p hp hp' => h.owned.unique key key' p (hold key p hp).2 (hold key' p hp').2
    · exact fun key p hp => h.owned.bounded key p (hold key p hp).2
    · intro w hw p hp
      obtain ⟨hlt, hname⟩ := h.owned.found w hw p hp
      exact ⟨hlt, fun key hkey => hname key (hold key p hkey).2⟩
    · intro d' hd' ps hps p hp
      rcases mem_or_eq_of_mem_set hd' with hd' | rfl
      · obtain ⟨hlt, hfree, hother⟩ := h.owned.detached d' hd' ps hps p hp
        exact ⟨hlt, fun key hkey => hfree key (hold key p hkey).2, hother⟩
      · cases hps
        obtain ⟨key, hkey, hp⟩ := hfound p hp
        refine ⟨h.owned.bounded key p hp, fun key' hkey' => ?_, fun w hw hlater hcache => ?_⟩
        · obtain ⟨hnot, hkey'⟩ := hold key' p hkey'
          exact hnot (h.owned.unique key key' p hp hkey' ▸ hkey)
        · rw [(h.owned.found w hw p hcache).2 key hp] at hkey
          exact h.spared d hmem w hw hlater (tableName_of_mem_cacheNames hkey)

theorem Ready.clear (hact : c.act (.clear i) = some c') : c'.Ready := by
  obtain ⟨d, hd, hclear⟩ := bind_eq_some_iff.mp hact
  obtain ⟨caches, hcaches, rfl⟩ := map_eq_some_iff.mp hclear
  have hmem := mem_of_getElem? hd
  cases caches with
  | nil =>
    exact h.frame rfl rfl (fun d' hd' => ⟨d', mem_of_mem_eraseIdx hd', rfl, rfl⟩)
      (fun w hw => ⟨w, hw, rfl, rfl⟩)
      { h.owned with detached d' hd' := h.owned.detached d' (mem_of_mem_eraseIdx hd') }
  | cons p ps =>
    refine h.frame rfl rfl ?_ (fun w hw => ⟨w, hw, rfl, rfl⟩) { h.owned with detached := ?_ }
    · intro d' hd'
      rcases mem_or_eq_of_mem_set hd' with hd' | rfl
      · exact ⟨d', hd', rfl, rfl⟩
      · exact ⟨d, hmem, rfl, rfl⟩
    · intro d' hd' ps' hps' q hq
      rcases mem_or_eq_of_mem_set hd' with hd' | rfl
      · exact h.owned.detached d' hd' ps' hps' q hq
      · cases hps'
        exact h.owned.detached d hmem _ hcaches q (mem_cons_of_mem _ hq)

theorem Ready.step {a : Action} (hc : c.Apart a) (hact : c.act a = some c') : c'.Ready := by
  cases a with
  | update response => exact h.update hc hact
  | create version table => exact h.create hc hact
  | check header => exact h.check hact
  | getCache i => exact h.getCache hact
  | write i now keyValues ttl => exact h.write hact
  | clearTables i => exact h.clearTables hact
  | clear i => exact h.clear hact

/-! ## Later writes -/

theorem Ready.drop_spares {d : DropTabler} (hd : c.drops[i]? = some d)
    {w : SetCall} (hw : w ∈ c.calls) (hlater : d.ticket < w.ticket) {a : Action}
    (ha : a = .clearTables i ∨ a = .clear i) (hact : c.act a = some c') :
    c'.caches.lookup (tableInfoString w.tableName w.id) =
      c.caches.lookup (tableInfoString w.tableName w.id) ∧
    ∀ p, w.cache = some p ∨ c.caches.lookup (tableInfoString w.tableName w.id) = some p →
      c'.heap p = c.heap p := by
  have hmem := mem_of_getElem? hd
  rcases ha with rfl | rfl <;> simp only [act, hd, bind_some] at hact
  · split at hact
    · cases hact
      refine ⟨?_, fun p hp => rfl⟩
      rw [(clearTables_spec _ _).1, if_neg]
      exact fun hname => h.spared d hmem w hw hlater (tableName_of_mem_cacheNames hname)
    · cases hact
  · obtain ⟨caches, hcaches, rfl⟩ := map_eq_some_iff.mp hact
    cases caches with
    | nil => exact ⟨rfl, fun p hp => rfl⟩
    | cons q qs =>
      refine ⟨rfl, fun p hp => update_of_ne ?_ _ _⟩
      rintro rfl
      obtain ⟨-, hfree, hother⟩ := h.owned.detached d hmem _ hcaches p mem_cons_self
      exact hp.elim (hother w hw hlater) (hfree _)

end DataServer

/-- **A drop leaves the entries of later writes alone.** As long as no table comes back while a drop
of its name is under way, no step of a drop removes anything from the partition of a write that was
checked after the drop was queued, nor from the cache the write has found. -/
theorem drop_spares_later_sets {c c' : DataServer}
    (hreach : (dataServer.restrict Apart).Reachable c) {i : ℕ} {d : DropTabler}
    (hd : c.drops[i]? = some d) {w : SetCall} (hw : w ∈ c.sets ∨ w ∈ c.acknowledged)
    (hlater : d.ticket < w.ticket) {a : Action}
    (ha : a = .clearTables i ∨ a = .clear i) (hact : c.act a = some c') :
    (∀ key, c'.value w.tableName w.id key = c.value w.tableName w.id key) ∧
    c'.caches.lookup (tableInfoString w.tableName w.id) =
      c.caches.lookup (tableInfoString w.tableName w.id) ∧
    ∀ p, w.cache = some p → c'.heap p = c.heap p := by
  have hready : c.Ready := by
    refine hreach.invariant (fun s hs => ?_) fun s e s' hstep hs => ?_
    · subst hs
      exact Ready.start
    · exact hs.step hstep.1 hstep.2
  obtain ⟨hlookup, hheap⟩ := hready.drop_spares hd (mem_append.mpr hw) hlater ha hact
  refine ⟨fun key => ?_, hlookup, fun p hp => hheap p (.inl hp)⟩
  unfold value
  rw [hlookup]
  cases hp : c.caches.lookup (tableInfoString w.tableName w.id) with
  | none => rfl
  | some p => simp only [bind_some, hheap p (.inr hp)]

namespace Sample

/-- A table of one active partition. -/
def hosted (name : Bytes) (version : ℤ) : Table :=
  ⟨name, [⟨0, .active, some (node 1), []⟩], 1, 1024, version⟩

def answered (epoch : ℤ) (tables : List Table) : Action :=
  .update { version := ⟨epoch, 0⟩, info := tables }

/-- Table `a` is dropped, comes back and is written to. -/
def comingBack : List Action :=
  [answered 1 [hosted [97] 1], answered 2 [], answered 3 [hosted [97] 3],
    .check ⟨3, 3, [97], 0⟩, .getCache 0, .write 0 0 (.singleton [1] [2]) 0]

/-- Table `a` is dropped, and table `b` is written to. -/
def besideDrop : List Action :=
  [answered 1 [hosted [97] 1, hosted [98] 1], answered 2 [hosted [98] 1],
    .check ⟨2, 1, [98], 0⟩, .getCache 0, .write 0 0 (.singleton [1] [2]) 0]

/-- The state after a list of actions. -/
def dataServerAfter (actions : List Action) : DataServer := (actions.foldlM act start).getD start

end Sample

open Sample

theorem drop_spares_later_sets_besideDrop :
    ∃ c', (Sample.dataServerAfter Sample.besideDrop).act (.clearTables 0) = some c' ∧
      c'.value [98] 0 [1] = some [2] := by
  have hadmits : System.Admits Apart act start besideDrop :=
    .cons (by rintro t ht d ⟨⟩) rfl (.cons (by rintro t ht d ⟨⟩) rfl
      (.cons trivial rfl (.cons trivial rfl (.cons trivial rfl trivial))))
  have hreach : (dataServer.restrict Apart).Reachable (dataServerAfter besideDrop) :=
    ⟨start, rfl, System.run_restrict_of_admits hadmits rfl⟩
  have hact : (dataServerAfter besideDrop).act (.clearTables 0) =
      some (dataServerAfter (besideDrop ++ [.clearTables 0])) := rfl
  have hspared := drop_spares_later_sets hreach (i := 0)
    (d := ⟨1, [.ofMessage (hosted [97] 1)], none⟩) rfl (w := ⟨2, [98], 0, some 0⟩)
    (.inr mem_cons_self) (by decide) (.inl rfl) hact
  exact ⟨_, hact, (hspared.1 [1]).trans rfl⟩

/-- The entry is gone after the drop that was queued before the table came back. -/
theorem drop_removes_later_set :
    ∃ (c c' : DataServer) (d : DropTabler) (w : SetCall), dataServer.Reachable c ∧
      c.drops[0]? = some d ∧ w ∈ c.acknowledged ∧ d.ticket < w.ticket ∧
      (c.view.tableInfo.lookup w.tableName).isSome = true ∧
      c.act (.clearTables 0) = some c' ∧ c.value w.tableName w.id [1] = some [2] ∧
      c'.value w.tableName w.id [1] = none := by
  have hrun : comingBack.foldlM act start = some (dataServerAfter comingBack) := rfl
  have hact : (dataServerAfter comingBack).act (.clearTables 0) =
      some (dataServerAfter (comingBack ++ [.clearTables 0])) := rfl
  exact ⟨_, _, ⟨1, [.ofMessage (hosted [97] 1)], none⟩, ⟨3, [97], 0, some 0⟩,
    ⟨start, rfl, System.run_of_foldlM hrun⟩, rfl, mem_cons_self, by decide, rfl,
    hact, rfl, rfl⟩

end Noah
