import Nori.Noah.Meta.ReverseIndex

/-!
# A node goes down

What `MigrateFromNode` and the loops of `DownNodes` and `DropTable` do to a state, said lookup by
lookup: the tables listed for the node give it up, everything else is unchanged.
-/

namespace Noah

open Butil Container List UnorderedMap

variable {s : MetaInfo} {node other : Node} {nodes : List Node} {name : Bytes}

/-! ## One node -/

namespace MetaInfo

/-- One pass through the loop of `MigrateFromNode`. -/
def migrateListed (node : Node) (s : MetaInfo) (name : Bytes) : MetaInfo :=
  { s with tableInfo := s.tableInfo.modify name (migrateFromTable s.nodes s.version.version node) }

theorem migrateFromNode_eq (node : Node) (s : MetaInfo) :
    s.migrateFromNode node = (tablesOf s.nodeTable node).elems.foldl (migrateListed node)
      { s with nodeTable := s.nodeTable.erase (node2String node) } := rfl

theorem foldl_migrateListed_frame (names : List Bytes) :
    (names.foldl (migrateListed node) s).version = s.version ∧
      (names.foldl (migrateListed node) s).nodes = s.nodes ∧
      (names.foldl (migrateListed node) s).nodeTable = s.nodeTable := by
  induction names generalizing s with
  | nil => exact ⟨rfl, rfl, rfl⟩
  | cons name names ih => exact ih

theorem lookup_foldl_migrateListed {names : List Bytes} (h : names.Nodup) :
    (names.foldl (migrateListed node) s).tableInfo.lookup name = if name ∈ names then
        (s.tableInfo.lookup name).map (migrateFromTable s.nodes s.version.version node)
      else s.tableInfo.lookup name := by
  induction names generalizing s with
  | nil => simp
  | cons first names ih =>
    obtain ⟨hfirst, hrest⟩ := nodup_cons.mp h
    rw [foldl_cons, ih hrest]
    simp only [migrateListed, lookup_modify, mem_cons]
    by_cases hn : name = first
    · subst hn
      simp [hfirst]
    · simp [hn]

@[simp] theorem migrateFromNode_version : (s.migrateFromNode node).version = s.version :=
  (foldl_migrateListed_frame _).1

@[simp] theorem migrateFromNode_nodes : (s.migrateFromNode node).nodes = s.nodes :=
  (foldl_migrateListed_frame _).2.1

theorem lookup_migrateFromNode : (s.migrateFromNode node).tableInfo.lookup name =
      if name ∈ tablesOf s.nodeTable node then
        (s.tableInfo.lookup name).map (migrateFromTable s.nodes s.version.version node)
      else s.tableInfo.lookup name := by
  have hnodup : (tablesOf s.nodeTable node).elems.Nodup :=
    (tablesOf s.nodeTable node).sorted.imp fun h => h.ne
  rw [migrateFromNode_eq, lookup_foldl_migrateListed hnodup]
  simp only [OrderedSet.mem_elems]

theorem tablesOf_migrateFromNode : tablesOf (s.migrateFromNode node).nodeTable other =
      if other = node then ∅ else tablesOf s.nodeTable other := by
  rw [migrateFromNode_eq, (foldl_migrateListed_frame _).2.2, tablesOf_erase]

/-! ## Several nodes -/

theorem generateMigrateTasks_cons (first : Node) (rest : List Node) :
    s.generateMigrateTasks (first :: rest) =
      (s.migrateFromNode first).generateMigrateTasks rest := rfl

@[simp] theorem generateMigrateTasks_version :
    (s.generateMigrateTasks nodes).version = s.version := by
  induction nodes generalizing s with
  | nil => rfl
  | cons first rest ih => rw [generateMigrateTasks_cons, ih, migrateFromNode_version]

@[simp] theorem generateMigrateTasks_nodes : (s.generateMigrateTasks nodes).nodes = s.nodes := by
  induction nodes generalizing s with
  | nil => rfl
  | cons first rest ih => rw [generateMigrateTasks_cons, ih, migrateFromNode_nodes]

theorem generateMigrateTasks_invariant {P : MetaInfo → Prop}
    (hstep : ∀ s, ∀ node ∈ nodes, P s → P (s.migrateFromNode node)) (hs : P s) :
    P (s.generateMigrateTasks nodes) := by
  induction nodes generalizing s with
  | nil => exact hs
  | cons first rest ih =>
    rw [generateMigrateTasks_cons]
    refine ih (fun s node hmem => hstep s node (mem_cons_of_mem _ hmem)) ?_
    exact hstep s first mem_cons_self hs

end MetaInfo

/-! ## The marking loop -/

theorem markDown_eq (nodes : List Node) (nodeMap : NodeInfoMap) : markDown nodes nodeMap =
      (nodes.any (registeredIn nodeMap),
        nodes.foldl (fun m n => m.modify (node2String n) fun _ => ⟨0⟩) nodeMap) := by
  -- marking keeps the keys, so what is registered does not depend on the nodes before
  have hreg (m : NodeInfoMap) (n : Node) :
      registeredIn (m.modify (node2String n) fun _ => ⟨0⟩) = registeredIn m := by
    funext n'
    rw [registeredIn, registeredIn, lookup_modify]
    split <;> simp
  -- the loop with an arbitrary flag and map, by induction on the list
  have h (b : Bool) (m : NodeInfoMap) : nodes.foldl (fun (st : Bool × NodeInfoMap) node =>
        (st.1 || registeredIn st.2 node, st.2.modify (node2String node) fun _ => ⟨0⟩)) (b, m) =
      (b || nodes.any (registeredIn m),
        nodes.foldl (fun m n => m.modify (node2String n) fun _ => ⟨0⟩) m) := by
    induction nodes generalizing b m with
    | nil => simp
    | cons n ns ih =>
      rw [foldl_cons, ih]
      simp only [hreg, any_cons, foldl_cons, Bool.or_assoc]
  simpa [markDown] using h false nodeMap

/-- The liveness map after the marking loop. -/
theorem lookup_markDown (nodeMap : NodeInfoMap) (key : Bytes) :
    (markDown nodes nodeMap).2.lookup key =
      if key ∈ nodes.map node2String then (nodeMap.lookup key).map fun _ => ⟨0⟩
      else nodeMap.lookup key := by
  rw [markDown_eq]
  induction nodes generalizing nodeMap with
  | nil => simp
  | cons n ns ih =>
    rw [foldl_cons, ih, lookup_modify, map_cons]
    by_cases hkey : key = node2String n
    · subst hkey
      by_cases hmem : node2String n ∈ ns.map node2String <;> simp [Function.comp_def]
    · simp only [mem_cons, hkey, if_false, false_or]

theorem markDown_eq_self {nodeMap : NodeInfoMap} (h : (markDown nodes nodeMap).1 = false) :
    (markDown nodes nodeMap).2 = nodeMap := by
  rw [markDown_eq] at h ⊢
  induction nodes with
  | nil => rfl
  | cons n ns ih =>
    rw [any_cons, Bool.or_eq_false_iff, registeredIn, Option.isSome_eq_false_iff,
      Option.isNone_iff_eq_none] at h
    have hself : nodeMap.modify (node2String n) (fun _ => ⟨0⟩) = nodeMap := by
      rw [UnorderedMap.modify, h.1]
    simpa [hself] using ih h.2

/-! ## Dropped tables -/

namespace MetaInfo

theorem dropOne_frame (st : Bool × MetaInfo) :
    (dropOne st name).2.version = st.2.version ∧ (dropOne st name).2.nodes = st.2.nodes := by
  unfold dropOne
  split <;> exact ⟨rfl, rfl⟩

theorem lookup_dropOne (st : Bool × MetaInfo) (other : Bytes) :
    (dropOne st name).2.tableInfo.lookup other =
      if other = name then none else st.2.tableInfo.lookup other := by
  unfold dropOne
  split
  · exact lookup_erase_eq _ _ _
  · rename_i habsent
    by_cases h : other = name
    · rw [if_pos h, h, habsent]
    · rw [if_neg h]

theorem foldl_dropOne_frame (tables : List Bytes) (st : Bool × MetaInfo) :
    (tables.foldl dropOne st).2.version = st.2.version ∧
      (tables.foldl dropOne st).2.nodes = st.2.nodes := by
  induction tables generalizing st with
  | nil => exact ⟨rfl, rfl⟩
  | cons name tables ih =>
    rw [foldl_cons, (ih _).1, (ih _).2]
    exact dropOne_frame st

theorem lookup_foldl_dropOne (tables : List Bytes) (st : Bool × MetaInfo) (name : Bytes) :
    (tables.foldl dropOne st).2.tableInfo.lookup name =
      if name ∈ tables then none else st.2.tableInfo.lookup name := by
  induction tables generalizing st with
  | nil => simp
  | cons first tables ih =>
    rw [foldl_cons, ih, lookup_dropOne]
    by_cases h : name = first <;> simp [h]

theorem foldl_dropOne_unchanged {tables : List Bytes} {st : Bool × MetaInfo}
    (h : (tables.foldl dropOne st).1 = false) : tables.foldl dropOne st = st := by
  induction tables generalizing st with
  | nil => rfl
  | cons first tables ih =>
    rw [foldl_cons] at h ⊢
    -- from the end: the last passes did nothing, so the flag after the first was down too
    have hrest := ih h
    rw [hrest] at h ⊢
    unfold dropOne at h ⊢
    split at h
    · cases h
    · rfl

theorem foldl_dropOne_eq_self {tables : List Bytes} {st : Bool × MetaInfo}
    (h : ∀ name ∈ tables, st.2.tableInfo.lookup name = none) : tables.foldl dropOne st = st := by
  induction tables with
  | nil => rfl
  | cons first tables ih =>
    have hfirst : dropOne st first = st := by rw [dropOne, h first mem_cons_self]
    rw [foldl_cons, hfirst]
    exact ih fun name hmem => h name (mem_cons_of_mem _ hmem)

end MetaInfo

end Noah
