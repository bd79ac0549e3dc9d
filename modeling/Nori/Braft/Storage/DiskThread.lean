import Nori.Braft.Storage.Pending

/-!
# The disk thread

The ids along the queue of the disk thread. As long as entries come with greater ids than all that
is to be done before them, no step of the disk thread changes the settled log, and those who wait
for the last log id are told it.
-/

namespace Braft.Storage

open Container DiskClosure AppendBatcher List

/-- Entries have greater ids than all that is to be done before them, and than what the disk thread
has written. -/
structure Rising {D ι : Type} (diskId currentId : LogId) (pending : List (DiskClosure D ι)) :
    Prop where
  disk : ∀ c ∈ pending, ∀ e ∈ c.entries, diskId.lt e.id
  current : ∀ c ∈ pending, ∀ e ∈ c.entries, currentId.lt e.id
  sorted : ∀ c ∈ pending, c.entries.Pairwise fun e e' => e.id.lt e'.id
  pairwise : pending.Pairwise fun c c' => ∀ x ∈ c.marks, ∀ e ∈ c'.entries, x.lt e.id

variable {D : Type}

theorem Rising.sublist {ι : Type} {diskId currentId : LogId}
    {pending pending' : List (DiskClosure D ι)} (h : Rising diskId currentId pending)
    (hsub : pending'.Sublist pending) : Rising diskId currentId pending' where
  disk c hc := h.disk c (hsub.mem hc)
  current c hc := h.current c (hsub.mem hc)
  sorted c hc := h.sorted c (hsub.mem hc)
  pairwise := h.pairwise.sublist hsub

theorem Rising.cons_nil {ι : Type} {diskId currentId : LogId} {pending : List (DiskClosure D ι)}
    (h : Rising diskId currentId pending) : Rising diskId currentId (.stable [] :: pending) where
  disk := forall_mem_cons.mpr ⟨forall_mem_nil _, h.disk⟩
  current := forall_mem_cons.mpr ⟨forall_mem_nil _, h.current⟩
  sorted := forall_mem_cons.mpr ⟨.nil, h.sorted⟩
  pairwise := pairwise_cons.mpr ⟨fun _ _ => forall_mem_nil _, h.pairwise⟩

/-- The last id that a caller may rely on after a closure; `none` right after the end of the log is
cut off, as the batch may end there and the id on disk does not go down. -/
def DiskClosure.tell (b : Option LogId) : DiskClosure D LogId → Option LogId
  | .stable entries => (entries.getLast?.map LogEntry.id).or b
  | .truncateSuffix _ _ => none
  | _ => b

theorem DiskClosure.tell_cases (c : DiskClosure D LogId) :
    c.tell none = none ∨ ∀ b, c.tell b = c.tell none := by
  cases c with
  | stable entries =>
    simp only [DiskClosure.tell]
    cases hlast : entries.getLast? with
    | none => exact .inl rfl
    | some e => exact .inr fun b => rfl
  | truncateSuffix k t => exact .inr fun b => rfl
  | _ => exact .inl rfl

/-- Callers of `last_log_id(true)`, each of which is named by the id it is to be told, are told
it. -/
def Answers : Option LogId → List (DiskClosure D LogId) → Prop
  | _, [] => True
  | b, c :: q => (∀ x, c = .lastLogId x → b = some x) ∧ Answers (c.tell b) q

variable {q : List (DiskClosure D LogId)}

theorem Answers.of_none (h : Answers none q) (b : Option LogId) : Answers b q := by
  induction q generalizing b with
  | nil => trivial
  | cons c q ih =>
    refine ⟨fun x hx => absurd (h.1 x hx) (by simp), ?_⟩
    rcases c.tell_cases with hnone | hsame
    · have htail := h.2
      rw [hnone] at htail
      exact ih htail _
    · rw [hsame b]
      exact h.2

theorem foldl_tell_of_none {x : LogId}
    (h : q.foldl DiskClosure.tell none = some x) (b : Option LogId) :
    q.foldl DiskClosure.tell b = some x := by
  induction q generalizing b with
  | nil => cases h
  | cons c q ih =>
    rw [foldl_cons] at h ⊢
    rcases c.tell_cases with hnone | hsame
    · rw [hnone] at h
      exact ih h _
    · rw [hsame b]
      exact h

theorem Answers.concat {b : Option LogId} (h : Answers b q)
    {c : DiskClosure D LogId} (hc : ∀ x, c = .lastLogId x → q.foldl DiskClosure.tell b = some x) :
    Answers b (q ++ [c]) := by
  induction q generalizing b with
  | nil => exact ⟨hc, trivial⟩
  | cons c' q ih => exact ⟨h.1, ih h.2 hc⟩

namespace LogManager

variable {lm lm' : LogManager D LogId}

/-- The id that a caller may rely on once the batcher has written what it has. -/
def base (lm : LogManager D LogId) : Option LogId :=
  DiskClosure.tell (if lm.currentId.lt lm.diskId then none else some lm.currentId)
    (.stable lm.buffered : DiskClosure D LogId)

/-- The id that a caller would be told who asks now. -/
def endId (lm : LogManager D LogId) : Option LogId := lm.diskQueue.foldl DiskClosure.tell lm.base

/-- All ids that the disk thread has or may get as last ids. -/
def ids (lm : LogManager D LogId) : List LogId :=
  lm.diskId :: lm.currentId :: lm.pending.flatMap DiskClosure.marks

theorem diskId_mem_ids : lm.diskId ∈ lm.ids := mem_cons_self

theorem currentId_mem_ids : lm.currentId ∈ lm.ids := mem_cons_of_mem _ mem_cons_self

variable {c : DiskClosure D LogId} {lim : AppendBatcher.Limits D} {answer : Option (LogId × LogId)}

theorem mem_ids {x : LogId} (hc : c ∈ lm.pending) (hx : x ∈ c.marks) : x ∈ lm.ids :=
  mem_cons_of_mem _ (mem_cons_of_mem _ (mem_flatMap.mpr ⟨c, hc, hx⟩))

theorem forall_ids {p : LogId → Prop} :
    (∀ x ∈ lm.ids, p x) ↔ p lm.diskId ∧ p lm.currentId ∧ ∀ c ∈ lm.pending, ∀ x ∈ c.marks, p x := by
  unfold ids
  rw [forall_mem_cons, forall_mem_cons, forall_mem_flatMap]

structure Queued (lm : LogManager D LogId) : Prop where
  rising : Rising lm.diskId lm.currentId lm.pending
  clearing : ∀ c ∈ lm.clearing, c.le lm.diskId
  answers : Answers lm.base lm.diskQueue

/-- What a step of the disk thread leaves as it is: the log, and all that it does not own. -/
structure SameLog (lm lm' : LogManager D LogId) : Prop where
  settled : lm'.settled = lm.settled
  unwritten : ∀ e ∈ lm'.unwritten, e ∈ lm.unwritten
  ids : ∀ x ∈ lm'.ids, x ∈ lm.ids
  endId : ∀ x, lm.endId = some x → lm'.endId = some x
  frame : lm' = { lm with
    storage := lm'.storage
    diskId := lm'.diskId
    diskQueue := lm'.diskQueue
    batch := lm'.batch
    clearing := lm'.clearing }

/-- A step that leaves only closures that were there. -/
theorem SameLog.of_pending (hpending : ∀ c ∈ lm'.pending, c ∈ lm.pending ∨ c = .stable [])
    (hsettled : lm'.settled = lm.settled) (hdisk : lm'.diskId ∈ lm.ids)
    (hcurrent : lm'.currentId ∈ lm.ids) (hend : ∀ x, lm.endId = some x → lm'.endId = some x)
    (hframe : lm' = { lm with
      storage := lm'.storage
      diskId := lm'.diskId
      diskQueue := lm'.diskQueue
      batch := lm'.batch
      clearing := lm'.clearing }) : lm.SameLog lm' where
  settled := hsettled
  unwritten e he := by
    obtain ⟨c, hc, he⟩ := mem_flatMap.mp he
    rcases hpending c hc with hc | rfl
    · exact mem_flatMap.mpr ⟨c, hc, he⟩
    · cases he
  ids := forall_ids.mpr ⟨hdisk, hcurrent, fun c hc x hx => by
    rcases hpending c hc with hc | rfl
    · exact mem_ids hc hx
    · cases hx⟩
  endId := hend
  frame := hframe

/-- The last id of the disk thread after a closure without entries. -/
def lastIdAfter (lastId : LogId) : DiskClosure D LogId → LogId
  | .truncateSuffix k t => ⟨k, t⟩
  | _ => lastId

theorem view_of_batch {lastId : LogId} {ab : AppendBatcher D}
    (hbatch : lm.batch = some (lastId, ab)) : lm.buffered = ab.toAppend ∧ lm.currentId = lastId ∧
      lm.pending = .stable ab.toAppend :: lm.diskQueue := by
  unfold pending buffered currentId
  rw [hbatch]
  exact ⟨rfl, rfl, rfl⟩

theorem base_of_nil (hbuffered : lm.buffered = []) :
    lm.base = if lm.currentId.lt lm.diskId then none else some lm.currentId := by
  unfold base
  rw [hbuffered]
  rfl

theorem base_of_getLast? {e : LogEntry D} (hlast : lm.buffered.getLast? = some e) :
    lm.base = some e.id := by
  simp only [base, DiskClosure.tell]
  rw [hlast]
  rfl

theorem tell_eq (hc : c.entries = []) (b : Option LogId) :
    c.tell b = none ∧ (∃ k t, c = .truncateSuffix k t) ∨
      c.tell b = b ∧ ∀ x, lastIdAfter x c = x := by
  cases c with
  | stable entries =>
    obtain rfl : entries = [] := hc
    exact .inr ⟨rfl, fun x => rfl⟩
  | truncateSuffix k t => exact .inl ⟨rfl, k, t, rfl⟩
  | _ => exact .inr ⟨rfl, fun x => rfl⟩

theorem answers_of {b : Option LogId} {q : List (DiskClosure D LogId)} (hq : Answers b q)
    (lm' : LogManager D LogId) (hb : b = none ∨ lm'.base = b) (hqueue : lm'.diskQueue = q) :
    Answers lm'.base lm'.diskQueue ∧
      ∀ x, q.foldl DiskClosure.tell b = some x → lm'.endId = some x := by
  unfold endId
  rw [hqueue]
  rcases hb with rfl | hb
  · exact ⟨hq.of_none _, fun x hx => foldl_tell_of_none hx _⟩
  · rw [hb]
    exact ⟨hq, fun x hx => hx⟩

theorem Queued.next {lastId : LogId} {ab : AppendBatcher D} {c : DiskClosure D LogId}
    {rest : List (DiskClosure D LogId)} (h : lm.Queued) (hbatch : lm.batch = some (lastId, ab))
    (hempty : ab.toAppend = []) (hqueue : lm.diskQueue = c :: rest) (hc : c.entries = []) :
    let lm' := { lm with
      storage := lm.storage.run c.op
      diskQueue := rest
      batch := some (lastIdAfter lastId c, ab) }
    lm'.Queued ∧ lm.SameLog lm' := by
  intro lm'
  obtain ⟨hbuffered, hcurrent, hpending⟩ := view_of_batch hbatch
  rw [hempty] at hbuffered hpending
  rw [hqueue] at hpending
  have hpending' : lm'.pending = .stable [] :: rest := by
    unfold pending
    rw [show lm'.buffered = [] from hempty]
  have hsub : lm'.pending.Sublist lm.pending := by
    rw [hpending, hpending']
    exact (sublist_cons_self c rest).cons_cons _
  have hrising := h.rising.sublist hsub
  have hids : lm'.currentId ∈ lm.ids := by
    rcases tell_eq hc none with ⟨-, k, t, rfl⟩ | ⟨-, hlast⟩
    · refine mem_ids (c := .truncateSuffix k t) ?_ (mem_singleton_self _)
      rw [hpending]
      exact mem_cons_of_mem _ mem_cons_self
    · rw [show lm'.currentId = lm.currentId from (hlast lastId).trans hcurrent.symm]
      exact currentId_mem_ids
  have hans := h.answers
  rw [hqueue] at hans
  have htell : c.tell lm.base = none ∨ lm'.base = c.tell lm.base := by
    rcases tell_eq hc lm.base with ⟨hnone, -⟩ | ⟨hsame, hlast⟩
    · exact .inl hnone
    · refine .inr ?_
      rw [hsame, base_of_nil hbuffered, base_of_nil (show lm'.buffered = [] from hempty), hcurrent,
        show lm'.currentId = lastId from hlast lastId]
  obtain ⟨hanswers, hend⟩ := answers_of hans.2 lm' htell rfl
  refine ⟨⟨{ hrising with current := ?_ }, h.clearing, hanswers⟩, ?_⟩
  · -- what comes after the end was cut off is above the id that it left
    intro c' hc' e he
    rcases tell_eq hc none with ⟨-, k, t, rfl⟩ | ⟨-, hlast⟩
    · have hpairwise := h.rising.pairwise
      rw [hpending] at hpairwise
      rw [hpending'] at hc'
      rcases mem_cons.mp hc' with rfl | hc'
      · cases he
      · exact rel_of_pairwise_cons hpairwise.tail hc' _ (mem_singleton_self _) e he
    · rw [show lm'.currentId = lm.currentId from (hlast lastId).trans hcurrent.symm]
      exact h.rising.current c' (hsub.mem hc') e he
  · refine .of_pending (fun c' hc' => .inl (hsub.mem hc')) ?_ diskId_mem_ids hids
      (fun x hx => hend x ?_) rfl
    · unfold settled
      rw [hpending, hpending']
      simp only [map_cons, op, ListLog.runAll_cons, ListLog.run, ListLog.append_nil]
      rfl
    · unfold endId at hx
      rwa [hqueue] at hx

theorem flush_cases (hstep : lm.flush = some lm') :
    ∃ lastId ab e, lm.batch = some (lastId, ab) ∧ ab.toAppend.getLast? = some e ∧ lm' = { lm with
        storage := lm.storage.append ab.toAppend
        batch := some (e.id, .empty) } := by
  unfold LogManager.flush at hstep
  cases hbatch : lm.batch with
  | none =>
    rw [hbatch] at hstep
    cases hstep
  | some b =>
    obtain ⟨lastId, ab⟩ := b
    rw [hbatch] at hstep
    obtain ⟨hsize, hstep⟩ := Option.ite_none_right_eq_some.mp hstep
    obtain ⟨e, hlast⟩ : ∃ e, ab.toAppend.getLast? = some e :=
      ⟨_, getLast?_eq_some_getLast (ab.size_pos.mp hsize)⟩
    rw [hlast] at hstep
    exact ⟨lastId, ab, e, rfl, hlast, (Option.some_inj.mp hstep).symm⟩

theorem Queued.flush (h : lm.Queued) (hstep : lm.flush = some lm') :
    lm'.Queued ∧ lm.SameLog lm' := by
  obtain ⟨lastId, ab, e, hbatch, hlast, rfl⟩ := flush_cases hstep
  set lm' := { lm with
    storage := lm.storage.append ab.toAppend
    batch := some (e.id, .empty) }
  obtain ⟨hbuffered, -, hpending⟩ := view_of_batch hbatch
  have hpending' : lm'.pending = .stable [] :: lm.diskQueue := rfl
  have hmem : e ∈ ab.toAppend := mem_of_getLast? hlast
  have hmark : e.id ∈ (.stable ab.toAppend : DiskClosure D LogId).marks := mem_map_of_mem hmem
  have hrising := h.rising
  rw [hpending] at hrising
  have hdisk := hrising.disk _ mem_cons_self e hmem
  have hqueue : Rising lm.diskId lm.currentId lm.diskQueue :=
    hrising.sublist (sublist_cons_self _ _)
  have hbase : lm'.base = lm.base := by
    refine Eq.trans ?_ (base_of_getLast? (hbuffered.symm ▸ hlast)).symm
    exact if_neg hdisk.asymm
  have hids : e.id ∈ lm.ids := by
    refine mem_ids ?_ hmark
    rw [hpending]
    exact mem_cons_self
  obtain ⟨hanswers, hend⟩ := answers_of h.answers lm' (.inr hbase) rfl
  refine ⟨⟨?_, h.clearing, hanswers⟩, ?_⟩
  · refine Rising.cons_nil { hqueue with
      current c hc e' he' := rel_of_pairwise_cons hrising.pairwise hc _ hmark e' he' }
  · refine .of_pending ?_ ?_ diskId_mem_ids hids hend rfl
    · rw [hpending, hpending']
      exact forall_mem_cons.mpr ⟨.inr rfl, fun c hc => .inl (mem_cons_of_mem _ hc)⟩
    · unfold settled
      rw [hpending, hpending']
      simp only [map_cons, op, ListLog.runAll_cons, ListLog.run, ListLog.append_nil]
      rfl

theorem Queued.startBatch (h : lm.Queued) (hstep : lm.startBatch = some lm') :
    lm'.Queued ∧ lm.SameLog lm' := by
  unfold LogManager.startBatch at hstep
  cases hbatch : lm.batch with
  | some b =>
    rw [hbatch] at hstep
    cases hstep
  | none =>
    rw [hbatch] at hstep
    cases hstep
    have hbuffered : lm.buffered = [] := by
      unfold buffered
      rw [hbatch]
      rfl
    have hcurrent : lm.currentId = lm.diskId := by
      unfold currentId
      rw [hbatch]
      rfl
    have hpending : lm.pending = .stable [] :: lm.diskQueue := by
      unfold pending
      rw [hbuffered]
    have hrising := h.rising
    rw [hpending, hcurrent] at hrising
    have hbase := base_of_nil hbuffered
    rw [hcurrent] at hbase
    obtain ⟨hanswers, hend⟩ := answers_of h.answers
      { lm with batch := some (lm.diskId, .empty) } (.inr hbase.symm) rfl
    refine ⟨⟨hrising, h.clearing, hanswers⟩, ?_⟩
    refine .of_pending (fun c hc => .inl (hpending ▸ hc)) ?_ diskId_mem_ids diskId_mem_ids hend rfl
    unfold settled
    rw [hpending]
    rfl

theorem Queued.endBatch (h : lm.Queued) (hstep : lm.endBatch = some lm') :
    lm'.Queued ∧ lm.SameLog lm' := by
  unfold LogManager.endBatch at hstep
  cases hbatch : lm.batch with
  | none =>
    rw [hbatch] at hstep
    cases hstep
  | some b =>
    obtain ⟨lastId, ab⟩ := b
    rw [hbatch] at hstep
    obtain ⟨hsize, hstep⟩ := Option.ite_none_left_eq_some.mp hstep
    have hlm' := (Option.some_inj.mp hstep).symm
    obtain ⟨hbuffered, hcurrent, hpending⟩ := view_of_batch hbatch
    rw [toAppend_eq_nil hsize] at hbuffered hpending
    have hrising := h.rising
    have hbase := base_of_nil hbuffered
    rw [hpending, hcurrent] at hrising
    rw [hcurrent] at hbase
    have hsettled : lm.settled = lm.storage.runAll ((.stable [] :: lm.diskQueue).map op) := by
      unfold settled
      rw [hpending]
    have hsame : ∀ c ∈ .stable [] :: lm.diskQueue, c ∈ lm.pending ∨ c = .stable [] :=
      fun c hc => .inl (hpending ▸ hc)
    unfold setDiskId at hlm'
    by_cases hlt : lastId.lt lm.diskId
    · rw [if_pos hlt] at hlm' hbase
      subst hlm'
      obtain ⟨hanswers, hend⟩ := answers_of h.answers { lm with batch := none } (.inl hbase) rfl
      exact ⟨⟨{ hrising with current := hrising.disk }, h.clearing, hanswers⟩,
        .of_pending hsame hsettled.symm diskId_mem_ids diskId_mem_ids hend rfl⟩
    · rw [if_neg hlt] at hlm' hbase
      subst hlm'
      have hirrefl : ¬ lastId.lt lastId := fun hself => hself.asymm hself
      obtain ⟨hanswers, hend⟩ := answers_of h.answers { lm with
          batch := none, diskId := lastId, clearing := lm.clearing ++ [lastId.min lm.appliedId] }
        (.inr ((if_neg hirrefl).trans hbase.symm)) rfl
      have hclearing : ∀ c ∈ lm.clearing ++ [lastId.min lm.appliedId], c.le lastId :=
        forall_mem_append.mpr ⟨fun c hc => (h.clearing c hc).trans (LogId.not_lt.mp hlt),
          forall_mem_singleton.mpr (LogId.min_le_left _ _)⟩
      have hlast : lastId ∈ lm.ids := hcurrent ▸ currentId_mem_ids
      exact ⟨⟨{ hrising with disk := hrising.current }, hclearing, hanswers⟩,
        .of_pending hsame hsettled.symm hlast hlast hend rfl⟩

theorem Queued.buffer {lastId : LogId} {ab : AppendBatcher D} {es : List (LogEntry D)}
    {rest : List (DiskClosure D LogId)} (h : lm.Queued) (hbatch : lm.batch = some (lastId, ab))
    (hqueue : lm.diskQueue = .stable es :: rest) (lim : AppendBatcher.Limits D) (hes : es ≠ []) :
    let lm' := { lm with diskQueue := rest, batch := some (lastId, ab.append lim es hes) }
    lm'.Queued ∧ lm.SameLog lm' := by
  intro lm'
  obtain ⟨e, hlast⟩ : ∃ e, es.getLast? = some e := ⟨_, getLast?_eq_some_getLast hes⟩
  obtain ⟨hbuffered, hcurrent, hpending⟩ := view_of_batch hbatch
  rw [hqueue] at hpending
  have hpending' : lm'.pending = .stable (ab.toAppend ++ es) :: rest := rfl
  have hrising := h.rising
  rw [hpending, hcurrent] at hrising
  have hmem : ∀ {c}, c ∈ rest → c ∈ .stable ab.toAppend :: .stable es :: rest :=
    fun hc => mem_cons_of_mem _ (mem_cons_of_mem _ hc)
  have hfirst : .stable ab.toAppend ∈ .stable ab.toAppend :: .stable es :: rest := mem_cons_self
  have hsecond : .stable es ∈ .stable ab.toAppend :: .stable es :: rest :=
    mem_cons_of_mem _ mem_cons_self
  have hans := h.answers
  rw [hqueue] at hans
  have hbase : lm'.base = (.stable es : DiskClosure D LogId).tell lm.base := by
    have hlast' : lm'.buffered.getLast? = some e := by
      rw [show lm'.buffered = ab.toAppend ++ es from rfl, getLast?_append, hlast]
      rfl
    rw [base_of_getLast? hlast']
    simp only [DiskClosure.tell]
    rw [hlast]
    rfl
  obtain ⟨hanswers, hend⟩ := answers_of hans.2 lm' (.inr hbase) rfl
  refine ⟨⟨?_, h.clearing, hanswers⟩, ?_⟩
  · rw [hpending']
    refine ⟨?_, ?_, ?_, ?_⟩
    · refine forall_mem_cons.mpr ⟨fun e' he' => ?_, fun c hc => hrising.disk c (hmem hc)⟩
      exact (mem_append.mp he').elim (hrising.disk _ hfirst e') (hrising.disk _ hsecond e')
    · refine forall_mem_cons.mpr ⟨fun e' he' => ?_, fun c hc => hrising.current c (hmem hc)⟩
      exact (mem_append.mp he').elim (hrising.current _ hfirst e') (hrising.current _ hsecond e')
    · refine forall_mem_cons.mpr ⟨?_, fun c hc => hrising.sorted c (hmem hc)⟩
      refine pairwise_append.mpr
        ⟨hrising.sorted _ hfirst, hrising.sorted _ hsecond, fun x hx y hy => ?_⟩
      exact rel_of_pairwise_cons hrising.pairwise mem_cons_self _ (mem_map_of_mem hx) y hy
    · refine pairwise_cons.mpr ⟨fun c hc x hx => ?_, hrising.pairwise.tail.tail⟩
      rw [marks, map_append] at hx
      rcases mem_append.mp hx with hx | hx
      · exact rel_of_pairwise_cons hrising.pairwise (mem_cons_of_mem _ hc) x hx
      · exact rel_of_pairwise_cons hrising.pairwise.tail hc x hx
  · exact {
      settled := by
        unfold settled
        rw [hpending, hpending']
        simp only [map_cons, op, ListLog.runAll_cons, ListLog.run, ListLog.append_append]
        rfl
      unwritten e' he' := by
        unfold unwritten at he' ⊢
        rw [hpending'] at he'
        rw [hpending]
        simpa [entries, or_assoc] using he'
      ids := forall_ids.mpr ⟨diskId_mem_ids, by
        rw [show lm'.currentId = lm.currentId from hcurrent.symm]
        exact currentId_mem_ids, by
        rw [hpending']
        refine forall_mem_cons.mpr ⟨fun x hx => ?_, fun c hc x => mem_ids ?_⟩
        · rw [marks, map_append] at hx
          rcases mem_append.mp hx with hx | hx
          · exact mem_ids (c := .stable ab.toAppend) (hpending ▸ hfirst) hx
          · exact mem_ids (c := .stable es) (hpending ▸ hsecond) hx
        · rw [hpending]
          exact hmem hc⟩
      endId x hx := hend x (by
        unfold endId at hx
        rw [hqueue] at hx
        exact hx)
      frame := rfl }

theorem iterate_cases (hstep : lm.iterate lim = some (lm', answer)) :
    ∃ lastId ab c rest, lm.batch = some (lastId, ab) ∧ lm.diskQueue = c :: rest ∧
      ((∃ es, ∃ hes : es ≠ [], c = .stable es ∧ answer = none ∧
          lm' = { lm with diskQueue := rest, batch := some (lastId, ab.append lim es hes) }) ∨
        ab.toAppend = [] ∧ c.entries = [] ∧
          (∀ x y, answer = some (x, y) → c = .lastLogId x ∧ y = lastId) ∧
          lm' = { lm with
            storage := lm.storage.run c.op
            diskQueue := rest
            batch := some (lastIdAfter lastId c, ab) }) := by
  unfold LogManager.iterate at hstep
  cases hbatch : lm.batch with
  | none =>
    rw [hbatch] at hstep
    cases hstep
  | some b =>
    obtain ⟨lastId, ab⟩ := b
    cases hqueue : lm.diskQueue with
    | nil =>
      rw [hbatch, hqueue] at hstep
      cases hstep
    | cons c rest =>
      rw [hbatch, hqueue] at hstep
      refine ⟨lastId, ab, c, rest, rfl, rfl, ?_⟩
      cases c with
      | stable es =>
        cases es with
        | nil =>
          obtain ⟨hsize, hstep⟩ := Option.ite_none_left_eq_some.mp hstep
          cases hstep
          refine .inr ⟨toAppend_eq_nil hsize, rfl, nofun, ?_⟩
          rw [show lm.storage.run (op (.stable [] : DiskClosure D LogId)) = lm.storage
            from ListLog.append_nil _]
          rfl
        | cons e es =>
          obtain ⟨-, hstep⟩ := Option.ite_none_left_eq_some.mp hstep
          cases hstep
          exact .inl ⟨e :: es, cons_ne_nil e es, rfl, rfl, rfl⟩
      | lastLogId x =>
        obtain ⟨hsize, hstep⟩ := Option.ite_none_left_eq_some.mp hstep
        cases hstep
        refine .inr ⟨toAppend_eq_nil hsize, rfl, fun x y h => ?_, ?_⟩
        · cases h
          exact ⟨rfl, rfl⟩
        · rw [show lm.storage.run (op (.lastLogId x : DiskClosure D LogId)) = lm.storage
            from ListLog.append_nil _]
          rfl
      | truncatePrefix k | truncateSuffix k t | reset n =>
        obtain ⟨hsize, hstep⟩ := Option.ite_none_left_eq_some.mp hstep
        cases hstep
        exact .inr ⟨toAppend_eq_nil hsize, rfl, nofun, rfl⟩

/-- The disk thread leaves the settled log as it is. -/
theorem Queued.iterate (h : lm.Queued) (hstep : lm.iterate lim = some (lm', answer)) :
    (lm'.Queued ∧ lm.SameLog lm') ∧ ∀ x y, answer = some (x, y) → y = x := by
  obtain ⟨lastId, ab, c, rest, hbatch, hqueue, hcases⟩ := iterate_cases hstep
  rcases hcases with ⟨es, hes, rfl, rfl, rfl⟩ | ⟨hempty, hc, hanswer, rfl⟩
  · exact ⟨h.buffer hbatch hqueue lim hes, nofun⟩
  · refine ⟨h.next hbatch hempty hqueue hc, fun x y hxy => ?_⟩
    obtain ⟨rfl, rfl⟩ := hanswer x y hxy
    obtain ⟨hbuffered, hcurrent, -⟩ := view_of_batch hbatch
    have hans := h.answers
    rw [hqueue, base_of_nil (hbuffered.trans hempty), hcurrent] at hans
    have htold := hans.1 x rfl
    split_ifs at htold
    exact Option.some_inj.mp htold

/-- Another closure for the disk thread. Its entries are above all ids before it, and a caller that
waits is named by the id at the end of the queue. -/
theorem Queued.enqueue (h : lm.Queued) (hlm' : lm.Enqueued lm' c)
    (habove : ∀ x ∈ lm.ids, ∀ e ∈ c.entries, x.lt e.id)
    (hsorted : c.entries.Pairwise fun e e' => e.id.lt e'.id)
    (hcaller : ∀ x, c = .lastLogId x → lm.endId = some x) :
    lm'.Queued ∧ (∀ x ∈ lm'.ids, x ∈ lm.ids ∨ x ∈ c.marks) ∧ lm'.endId = c.tell lm.endId := by
  have hdisk := hlm'.diskId
  have hcurrent : lm'.currentId = lm.currentId := by
    unfold currentId
    rw [hlm'.batch, hdisk]
  have hbase : lm'.base = lm.base := by
    unfold base buffered
    rw [hcurrent, hdisk, hlm'.batch]
  refine ⟨⟨?_, ?_, ?_⟩, ?_, ?_⟩
  · rw [hdisk, hcurrent, hlm'.pending]
    refine ⟨?_, ?_, ?_, ?_⟩
    · refine forall_mem_append.mpr ⟨h.rising.disk, forall_mem_singleton.mpr ?_⟩
      exact habove _ diskId_mem_ids
    · refine forall_mem_append.mpr ⟨h.rising.current, forall_mem_singleton.mpr ?_⟩
      exact habove _ currentId_mem_ids
    · exact forall_mem_append.mpr ⟨h.rising.sorted, forall_mem_singleton.mpr hsorted⟩
    · refine pairwise_append.mpr ⟨h.rising.pairwise, pairwise_singleton _ _, ?_⟩
      intro c' hc'
      exact forall_mem_singleton.mpr fun x hx => habove x (mem_ids hc' hx)
  · rw [hlm'.clearing, hdisk]
    exact h.clearing
  · rw [hbase, hlm'.queue]
    exact h.answers.concat hcaller
  · refine forall_ids.mpr ⟨.inl (hdisk ▸ diskId_mem_ids), .inl (hcurrent ▸ currentId_mem_ids), ?_⟩
    rw [hlm'.pending]
    exact forall_mem_append.mpr ⟨fun c' hc' x hx => .inl (mem_ids hc' hx),
      forall_mem_singleton.mpr fun x hx => .inr hx⟩
  · unfold endId
    rw [hbase, hlm'.queue, foldl_append]
    rfl

end LogManager

end Braft.Storage
