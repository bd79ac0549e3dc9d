import Mathlib.Data.List.TakeWhile
import Nori.Noah.Node.Migrate

/-!
# A migration commits complete copies only

`CommitToMeta` should be reached only after every key that stayed in the cache was taken over by the
target. `MigrateData` does not look at the result of `MigrateToDst`, and its loop also ends at the
quit signal, so this holds as long as neither gives up: no quit signal comes before `MigrateData`
has ended, and the table is in the view whenever the view was updated for the target.
-/

namespace Noah

open Butil Container Transition NodeMigrate List AList

namespace NodeMigrate

variable {bucket : ℕ → Bytes → ℕ} {migrateBatchSize : Int32} {task : MigrateTaskInfo}
  {w w' : NodeMigrate bucket}

/-- `MigrateData` has been left, or was never entered. -/
def past (w : NodeMigrate bucket) : Bool :=
  match w.pc with
  | .commitToMeta | .metaCmd | .unregister | .finished => true
  | _ => false

/-- The quit signal comes after `MigrateData`, and the table is there when the view was updated for
the target. -/
def Undisturbed (task : MigrateTaskInfo) (w : NodeMigrate bucket) : Event bucket → Prop
  | .quit => w.past = true
  | .run (.eepoch true) =>
    w.pc = .migrateToDst → (w.metaInfo.tableInfo.lookup task.tableName).isSome = true
  | _ => True

/-- A key that has been in the cache all the time and still has to be sent. -/
def Pending (w : NodeMigrate bucket) (key : Bytes) : Prop :=
  (∀ cache ∈ w.history, key ∈ cache.map) ∧ key ∉ w.request.keyValues ∧ ∀ info, ⟨key, info⟩ ∉ w.acked

/-- The loop over keys with `Q`: at its end there are none, and before it the next batch starts in
front of all of them, unless it starts from the beginning. -/
structure Progress (ended : Bool) (buckets : ℕ) (lastKey : Bytes)
    (cache : HashTable Bytes ValueInfo bucket) (Q : Bytes → Prop) : Prop where
  done : ended = true → ∀ key, ¬ Q key
  buckets_le : buckets ≤ cache.bucketCount
  resumable : ended = false → lastKey ≠ [] → buckets = cache.bucketCount →
    Resumable (bucket cache.bucketCount) lastKey Q cache.map.keys

/-- The thread is in the loop of `MigrateData`, and knows where to go on. -/
abbrev Proceeds (w : NodeMigrate bucket) : Prop :=
  Progress w.ended w.buckets w.lastKey w.cache w.Pending

theorem Progress.mono {ended : Bool} {buckets : ℕ} {lastKey : Bytes}
    {cache : HashTable Bytes ValueInfo bucket} {Q Q' : Bytes → Prop}
    (h : Progress ended buckets lastKey cache Q) (hQ : ∀ key, Q' key → Q key) :
    Progress ended buckets lastKey cache Q' := { h with
  done hended key hkey := h.done hended key (hQ key hkey)
  resumable hended hlast hbuckets := (h.resumable hended hlast hbuckets).mono hQ }

structure Inv (w : NodeMigrate bucket) : Prop where
  undisturbed : w.past = false → w.askedToQuit = false
  unstarted : w.pc = .register → w.history = []
  cleared : w.pc ≠ .migrateToDst → w.request.keyValues = ∅
  current : w.migrating = true → w.cache ∈ w.history
  seen : ∀ e, e ∈ w.request.keyValues.entries ∨ e ∈ w.acked →
    ∃ cache ∈ w.history, cache.map.lookup e.1 = some e.2
  progress : w.pc = .loop ∨ w.pc = .migrateToDst → w.Proceeds
  complete : w.pc = .commitToMeta → w.canceled = false → ∀ key, ¬ w.Pending key
  committed : w.pc = .metaCmd ∨ w.sent ≠ [] → ∀ key, ¬ w.Pending key
  unsent : w.past = false ∨ w.pc = .commitToMeta → w.sent = []

theorem Inv.of_before (hpast : w.past = false) (hsent : w.sent = [])
    (undisturbed : w.askedToQuit = false) (unstarted : w.pc = .register → w.history = [])
    (cleared : w.pc ≠ .migrateToDst → w.request.keyValues = ∅)
    (current : w.migrating = true → w.cache ∈ w.history)
    (seen : ∀ e, e ∈ w.request.keyValues.entries ∨ e ∈ w.acked →
      ∃ cache ∈ w.history, cache.map.lookup e.1 = some e.2)
    (progress : w.pc = .loop ∨ w.pc = .migrateToDst → w.Proceeds) : w.Inv where
  undisturbed _ := undisturbed
  unstarted := unstarted
  cleared := cleared
  current := current
  seen := seen
  progress := progress
  complete hpc := by rw [past, hpc] at hpast; cases hpast
  committed hor := by
    rcases hor with hpc | hne
    · rw [past, hpc] at hpast
      cases hpast
    · exact absurd hsent hne
  unsent _ := hsent

/-! ## A batch -/

theorem unread_split (h : w.Proceeds) (hended : w.ended = false) :
    ∃ passed, w.cache.map.entries = passed ++ w.unread ∧ ∀ e ∈ passed, ¬ w.Pending e.1 := by
  unfold unread
  split
  · rename_i hresume
    simp only
    split
    · exact ⟨[], rfl, by simp⟩
    · rename_i hfound
      refine ⟨w.cache.map.entries.takeWhile (·.1 ≠ w.lastKey), takeWhile_append_dropWhile.symm, ?_⟩
      intro e he
      have hlast : w.lastKey ∈ w.cache.map.keys := by
        by_contra habsent
        refine hfound (dropWhile_eq_nil_iff.2 fun e' he' => ?_)
        simp only [decide_eq_true_eq]
        rintro heq
        exact habsent (heq ▸ mem_map_of_mem (f := Sigma.fst) he')
      refine (h.resumable hended hresume.1 hresume.2).not_of_mem_takeWhile hlast ?_
      have hmap : w.cache.map.keys.takeWhile (· ≠ w.lastKey) =
          (w.cache.map.entries.takeWhile (·.1 ≠ w.lastKey)).map Sigma.fst :=
        takeWhile_map ..
      rw [hmap]
      exact mem_map_of_mem he
  · exact ⟨[], rfl, by simp⟩

theorem entries_split (migrateBatchSize : Int32) (h : w.Proceeds) (hended : w.ended = false) :
    ∃ passed, w.cache.map.entries = passed ++ w.batch migrateBatchSize ++ w.left migrateBatchSize ∧
      ∀ e ∈ passed, ¬ w.Pending e.1 := by
  obtain ⟨passed, hentries, hpassed⟩ := unread_split h hended
  refine ⟨passed, ?_, hpassed⟩
  rw [batch, left, append_assoc, take_append_drop]
  exact hentries

theorem mem_request_readBatch (h : w.Proceeds) (hended : w.ended = false)
    (hcleared : w.request.keyValues = ∅) (e : Σ _ : Bytes, ValueInfo) :
    e ∈ (w.readBatch migrateBatchSize).request.keyValues.entries ↔
      e ∈ w.batch migrateBatchSize := by
  obtain ⟨passed, hentries, -⟩ := entries_split migrateBatchSize h hended
  have hnodup : (w.batch migrateBatchSize).NodupKeys := by
    have hall := w.cache.map.nodupKeys
    rw [hentries, append_assoc] at hall
    exact List.NodupKeys.sublist ((sublist_append_left _ _).trans (sublist_append_right _ _)) hall
  have hlookup := UnorderedMap.lookup_foldl_assign (fun info : ValueInfo => info) hnodup
    w.request.keyValues e.1
  rw [← mem_lookup_iff, ← mem_dlookup_iff hnodup]
  simp only [readBatch, Option.mem_def]
  rw [hlookup, hcleared]
  simp

theorem proceeds_readBatch (migrateBatchSize : Int32) (h : w.Proceeds) (hended : w.ended = false)
    (hcleared : w.request.keyValues = ∅) (hcurrent : w.cache ∈ w.history) :
    (w.readBatch migrateBatchSize).Proceeds := by
  obtain ⟨passed, hentries, hpassed⟩ := entries_split migrateBatchSize h hended
  -- what was passed over is not pending, and what was taken is in the request now
  have hbefore : ∀ e ∈ passed ++ w.batch migrateBatchSize,
      ¬ (w.readBatch migrateBatchSize).Pending e.1 := by
    intro e he hpending
    rcases mem_append.mp he with he | he
    · refine hpassed e he ⟨hpending.1, ?_, hpending.2.2⟩
      rw [hcleared]
      exact notMem_empty _
    · refine hpending.2.1 ?_
      rw [AList.mem_keys]
      exact mem_map_of_mem ((mem_request_readBatch h hended hcleared e).mpr he)
  constructor
  · intro hend key hpending
    have hleft : w.left migrateBatchSize = [] := isEmpty_iff.mp hend
    obtain ⟨e, he, rfl⟩ := mem_map.mp (mem_keys.mp (hpending.1 w.cache hcurrent))
    rw [hentries, hleft, append_nil] at he
    exact hbefore e he hpending
  · change (if _ then _ else _) ≤ _
    split
    · exact h.buckets_le
    · exact le_rfl
  · intro hend _ _
    cases hleft : w.left migrateBatchSize with
    | nil => simp [readBatch, hleft] at hend
    | cons e rest =>
      have hlast : (w.readBatch migrateBatchSize).lastKey = e.1 := by simp [readBatch, hleft]
      have hkeys : w.cache.map.keys = (passed ++ w.batch migrateBatchSize).map Sigma.fst ++
          e.1 :: rest.map Sigma.fst := by
        have hmap := congrArg (List.map Sigma.fst) hentries
        rw [hleft, map_append, map_cons] at hmap
        exact hmap
      change Resumable _ _ _ w.cache.map.keys
      rw [hlast, hkeys]
      refine Resumable.of_split fun key hkey => ?_
      obtain ⟨e', he', rfl⟩ := mem_map.mp hkey
      exact hbefore e' he'

/-! ## The cache changes -/

theorem mem_history_withCache (cache : HashTable Bytes ValueInfo bucket)
    {c : HashTable Bytes ValueInfo bucket} (h : c ∈ w.history) :
    c ∈ (w.withCache cache).history := by
  change c ∈ if w.migrating then cache :: w.history else w.history
  split
  · exact mem_cons_of_mem _ h
  · exact h

theorem pending_of_withCache {cache : HashTable Bytes ValueInfo bucket} (key : Bytes)
    (h : (w.withCache cache).Pending key) : w.Pending key :=
  ⟨fun c hc => h.1 c (mem_history_withCache cache hc), h.2⟩

section

variable (h : w.Inv)
include h

variable {cache : HashTable Bytes ValueInfo bucket}

/-- A write or a rehash keeps the invariant if it keeps the progress with the pending keys. -/
theorem Inv.withCache (hprogress : w.migrating = true → ∀ Q,
      (∀ key, Q key → (w.withCache cache).Pending key) →
      Progress w.ended w.buckets w.lastKey w.cache Q →
      Progress w.ended w.buckets w.lastKey cache Q) :
    (w.withCache cache).Inv := { h with
  unstarted hpc := by
    have hmigrating : w.migrating = false := by simp only [migrating, show w.pc = _ from hpc]
    change (if w.migrating then cache :: w.history else w.history) = []
    rw [hmigrating]
    exact h.unstarted hpc
  current hmigrating := by
    change cache ∈ if w.migrating then cache :: w.history else w.history
    rw [if_pos (show w.migrating = true from hmigrating)]
    exact mem_cons_self
  seen e he := by
    obtain ⟨c, hc, hlookup⟩ := h.seen e he
    exact ⟨c, mem_history_withCache cache hc, hlookup⟩
  progress hpc := by
    refine hprogress ?_ _ (fun _ hkey => hkey) ((h.progress hpc).mono pending_of_withCache)
    rcases hpc with hpc | hpc <;> simp only [migrating, show w.pc = _ from hpc]
  complete hpc hcanceled key hpending :=
    h.complete hpc hcanceled key (pending_of_withCache key hpending)
  committed hor key hpending := h.committed hor key (pending_of_withCache key hpending) }

theorem Inv.set (key : Bytes) (info : ValueInfo) : (w.withCache (w.cache.assign key info)).Inv := by
  refine h.withCache fun hmigrating Q hQ hprogress => ⟨hprogress.done, ?_, ?_⟩
  · exact hprogress.buckets_le.trans HashTable.bucketCount_assign.ge
  · intro hended hlast hbuckets
    rw [HashTable.bucketCount_assign] at hbuckets ⊢
    refine HashTable.resumable_assign (hprogress.resumable hended hlast hbuckets) ?_
    -- a key that comes in now has not been there all the time
    intro habsent hkey
    exact habsent ((hQ key hkey).1 w.cache (mem_history_withCache _ (h.current hmigrating)))

theorem Inv.del (key : Bytes) : (w.withCache (w.cache.erase key)).Inv :=
  h.withCache fun _ _ _ hprogress => ⟨hprogress.done, hprogress.buckets_le,
    fun hended hlast hbuckets =>
      HashTable.resumable_erase (hprogress.resumable hended hlast hbuckets) key⟩

theorem Inv.rehash (hrehash : w.cache.RehashOf cache) : (w.withCache cache).Inv := by
  refine h.withCache fun _ _ _ hprogress =>
    ⟨hprogress.done, hprogress.buckets_le.trans hrehash.2.le, ?_⟩
  -- there are more buckets than the thread has noted
  intro _ _ hbuckets
  exact absurd hbuckets (hprogress.buckets_le.trans_lt hrehash.2).ne

/-! ## The thread -/

/-- The thread goes to its end. -/
theorem Inv.leave {pc : Pc} (hto : pc = .unregister ∨ pc = .finished) (hpc : w.pc ≠ .migrateToDst) :
    Inv { w with pc := pc } := by
  rcases hto with rfl | rfl <;> exact { h with
    undisturbed := nofun
    unstarted := nofun
    cleared _ := h.cleared hpc
    current := nofun
    progress := nofun
    complete := nofun
    committed hor := h.committed (.inr (hor.resolve_left nofun))
    unsent := nofun }

theorem Inv.migrateData (hpc : w.pc = .migrateData) : (w.migrateData task).Inv := by
  have hpast : w.past = false := by simp only [past, hpc]
  unfold NodeMigrate.migrateData
  split
  · exact h.leave (.inl rfl) (by simp [hpc])
  · exact .of_before rfl (h.unsent (.inl hpast)) (h.undisturbed hpast) nofun (fun _ => rfl)
      (fun _ => h.current (by simp only [migrating, hpc]))
      (fun e he => h.seen e (.inr (he.resolve_left not_mem_nil)))
      fun _ => ⟨nofun, le_rfl, fun _ hlast => absurd rfl hlast⟩

theorem Inv.migrateLoop (hpc : w.pc = .loop) : (w.migrateLoop migrateBatchSize).Inv := by
  have hpast : w.past = false := by simp only [past, hpc]
  have hprogress := h.progress (.inl hpc)
  have hcleared := h.cleared (by simp [hpc])
  have hcurrent := h.current (by simp only [migrating, hpc])
  unfold NodeMigrate.migrateLoop
  split
  · rename_i hgo
    have hread := proceeds_readBatch migrateBatchSize hprogress hgo.1 hcleared hcurrent
    have hseen : ∀ e, e ∈ (w.readBatch migrateBatchSize).request.keyValues.entries ∨ e ∈ w.acked →
        ∃ cache ∈ w.history, cache.map.lookup e.1 = some e.2 := by
      rintro e (he | he)
      · obtain ⟨passed, hentries, -⟩ := entries_split migrateBatchSize hprogress hgo.1
        have hmem : e ∈ w.cache.map.entries := by
          rw [hentries]
          exact mem_append_left _ (mem_append_right _
            ((mem_request_readBatch hprogress hgo.1 hcleared e).mp he))
        exact ⟨w.cache, hcurrent, mem_lookup_iff.mpr hmem⟩
      · exact h.seen e (.inr he)
    split
    · rename_i hempty
      -- nothing to send: the request stays empty
      have hbatch : w.batch migrateBatchSize = [] := by rw [batch, hempty, take_nil]
      refine .of_before hpast (h.unsent (.inl hpast)) (h.undisturbed hpast)
        (fun hreg => absurd (hpc.symm.trans hreg) nofun) (fun _ => ?_) (fun _ => hcurrent) hseen
        fun _ => hread
      change (w.batch migrateBatchSize).foldl _ w.request.keyValues = ∅
      rw [hbatch]
      exact hcleared
    · exact .of_before rfl (h.unsent (.inl hpast)) (h.undisturbed hpast) nofun
        (fun hne => absurd rfl hne) (fun _ => hcurrent) hseen fun _ => hread
  · rename_i hstop
    exact { h with
      undisturbed := nofun
      unstarted := nofun
      cleared _ := hcleared
      current := nofun
      progress := nofun
      complete _ hcanceled key hpending := by
        -- without a quit signal and `Cancel` only the end leads out of the loop
        refine hprogress.done ?_ key hpending
        by_contra hended
        exact hstop ⟨by simpa using hended, hcanceled, h.undisturbed hpast⟩
      committed hor := absurd (h.unsent (.inl hpast)) (hor.resolve_left nofun)
      unsent _ := h.unsent (.inl hpast) }

/-- Another attempt, after the request was perhaps given new versions. -/
theorem Inv.again (hpc : w.pc = .migrateToDst) (request : MigrateRequest)
    (hsame : request.keyValues = w.request.keyValues) :
    ({ w with request := request }.retryDst).Inv := by
  have hpast : w.past = false := by simp only [past, hpc]
  have hquit := h.undisturbed hpast
  unfold retryDst
  rw [if_neg (by simp [hquit])]
  have hpending : ∀ key, Pending { w with request := request } key → w.Pending key :=
    fun key hp => ⟨hp.1, hsame ▸ hp.2.1, hp.2.2⟩
  exact .of_before hpast (h.unsent (.inl hpast)) hquit h.unstarted (fun hne => absurd hpc hne)
    h.current (fun e he => h.seen e (hsame ▸ he)) fun hor => (h.progress hor).mono hpending

theorem Inv.migrateToDst (hpc : w.pc = .migrateToDst) {reply : Reply}
    (hC : w.Undisturbed task (.run reply)) : (w.migrateToDst task reply).Inv := by
  have hpast : w.past = false := by simp only [past, hpc]
  unfold NodeMigrate.migrateToDst
  split
  · -- the batch is acknowledged: what was in the request is among the acknowledged entries now
    have hpending : ∀ key,
        Pending { w with acked := w.request.keyValues.entries ++ w.acked }.leaveDst key →
          w.Pending key := by
      refine fun key hp => ⟨hp.1, fun hmem => ?_, fun info hmem => ?_⟩
      · obtain ⟨e, he, rfl⟩ := mem_map.mp (mem_keys.mp hmem)
        exact hp.2.2 e.2 (mem_append_left _ he)
      · exact hp.2.2 info (mem_append_right _ hmem)
    exact .of_before rfl (h.unsent (.inl hpast)) (h.undisturbed hpast) nofun (fun _ => rfl)
      (fun _ => h.current (by simp only [migrating, hpc]))
      (fun e he => h.seen e (mem_append.mp (he.resolve_left not_mem_nil)))
      fun _ => (h.progress (.inr hpc)).mono hpending
  · split
    · rename_i hnone
      have hsome := hC hpc
      rw [hnone] at hsome
      cases hsome
    · exact h.again hpc _ rfl
  all_goals exact h.again hpc w.request rfl

theorem Inv.commitToMeta (hpc : w.pc = .commitToMeta) : w.commitToMeta.Inv := by
  unfold NodeMigrate.commitToMeta
  split
  · exact h.leave (.inl rfl) (by simp [hpc])
  · rename_i hcanceled
    exact { h with
      undisturbed := nofun
      unstarted := nofun
      cleared _ := h.cleared (by simp [hpc])
      current := nofun
      progress := nofun
      complete := nofun
      committed _ := h.complete hpc (by simpa using hcanceled)
      unsent := nofun }

theorem Inv.metaCmd (hpc : w.pc = .metaCmd) (reply : Reply) : (w.metaCmd task reply).Inv := by
  -- whatever the answer is, the thread stays here or goes to its end
  have hstays : ∀ version sent, Inv { w with metaVersion := version, sent := sent } := fun _ _ =>
    { h with
      committed _ := h.committed (.inl hpc)
      unsent hor := by
        rw [past, hpc] at hor
        exact hor.elim nofun nofun }
  have hretry : ∀ version sent,
      ({ w with metaVersion := version, sent := sent }.retryMeta).Inv := by
    intro version sent
    unfold retryMeta
    split
    · exact (hstays version sent).leave (.inl rfl) (by simp [hpc])
    · exact hstays version sent
  cases reply with
  | ok => exact (hstays _ _).leave (.inl rfl) (by simp [hpc])
  | eepoch updated => cases updated <;> exact hretry _ _
  | failed => exact hretry _ _
  | error => exact hretry _ _

theorem Inv.run {reply : Reply} (hC : w.Undisturbed task (.run reply))
    (hstep : w.run migrateBatchSize task reply = some w') : w'.Inv := by
  unfold NodeMigrate.run at hstep
  split at hstep <;> cases hstep
  · rename_i hpc
    have hpast : w.past = false := by simp only [past, hpc]
    have hnone : ∀ e, ¬ (e ∈ w.request.keyValues.entries ∨ e ∈ w.acked) := fun e he => by
      obtain ⟨cache, hcache, -⟩ := h.seen e he
      rw [h.unstarted hpc] at hcache
      cases hcache
    exact .of_before rfl (h.unsent (.inl hpast)) (h.undisturbed hpast) nofun
      (fun _ => h.cleared (by simp [hpc])) (fun _ => mem_cons_self)
      (fun e he => absurd he (hnone e)) nofun
  · exact h.migrateData ‹_›
  · exact h.migrateLoop ‹_›
  · exact h.migrateToDst ‹_› hC
  · exact h.commitToMeta ‹_›
  · exact h.metaCmd ‹_› reply
  · rename_i hpc
    exact { h.leave (.inr rfl) (by simp [hpc]) with }

/-- Every undisturbed step keeps the invariant. -/
theorem Inv.step {event : Event bucket} (hC : w.Undisturbed task event)
    (hstep : w.step migrateBatchSize task event = some w') : w'.Inv := by
  cases event with
  | set key info => cases hstep; exact h.set key info
  | del key => cases hstep; exact h.del key
  | rehash cache =>
    simp only [NodeMigrate.step, Option.ite_none_right_eq_some] at hstep
    obtain ⟨hrehash, hstep⟩ := hstep
    cases hstep
    exact h.rehash hrehash
  | updateMetaInfo view => cases hstep; exact { h with }
  | cancel => cases hstep; exact { h with complete := fun _ => nofun }
  | quit =>
    cases hstep
    exact { h with undisturbed hpast := absurd (hC.symm.trans hpast) nofun }
  | run reply => exact h.run hC hstep

end

end NodeMigrate

/-- **What is committed is complete.** In every run in which the quit signal comes only after
`MigrateData` and the table stays in the view while the target asks for a newer one, once a
`MIGRATE` command was sent, the target has acknowledged every key that was in the cache from the
start of `MigrateData` to its end, with a value that it had there. -/
theorem committed_complete {bucket : ℕ → Bytes → ℕ} {migrateBatchSize : Int32}
    {task : MigrateTaskInfo} {w : NodeMigrate bucket}
    (h : ((migration bucket migrateBatchSize task).restrict
      (NodeMigrate.Undisturbed task)).Reachable w) (hsent : w.sent ≠ []) (key : Bytes)
    (hkey : ∀ cache ∈ w.history, key ∈ cache.map) :
    ∃ info, ⟨key, info⟩ ∈ w.acked ∧ ∃ cache ∈ w.history, cache.map.lookup key = some info := by
  have hinv : w.Inv := by
    refine h.invariant (fun w hw => ?_) ?_
    · have hpast : w.past = false := by rw [past, hw.pc_eq]
      refine .of_before hpast hw.sent_eq hw.askedToQuit_eq (fun _ => hw.history_eq)
        (fun _ => hw.keyValues_eq) (fun hmigrating => ?_) (fun e he => ?_) fun hpc => ?_
      · rw [migrating, hw.pc_eq] at hmigrating
        cases hmigrating
      · rw [hw.keyValues_eq, hw.acked_eq] at he
        exact absurd he (by simp)
      · rw [hw.pc_eq] at hpc
        exact hpc.elim nofun nofun
    · rintro w event w' ⟨hC, hstep⟩ hw
      exact hw.step hC hstep
  have hpast : w.pc ≠ .migrateToDst := fun hpc => by
    have hunsent := hinv.unsent (.inl (by rw [past, hpc]))
    exact hsent hunsent
  by_contra hnone
  refine hinv.committed (.inr hsent) key ⟨hkey, ?_, fun info hmem => hnone ⟨info, hmem, ?_⟩⟩
  · rw [hinv.cleared hpast]
    exact notMem_empty key
  · exact hinv.seen ⟨key, info⟩ (.inr hmem)

/-! ## One key -/

namespace NodeMigrate.Sample

def task : MigrateTaskInfo := ⟨bytes "t", 0, default, default, default, .slave⟩

/-- A thread over a cache with one key, in a single bucket. -/
def thread : NodeMigrate fun _ _ => 0 where
  pc := .register
  canceled := false
  request := ⟨⟨0, 0, [], 0⟩, ∅, false⟩
  lastKey := []
  buckets := 0
  ended := false
  metaVersion := ⟨0, 0⟩
  cacheExpired := false
  cache := HashTable.assign ⟨1, ∅, trivial⟩ (bytes "k") ⟨bytes "v", 0⟩
  metaInfo := ⟨⟨1, 1⟩, singleton (bytes "t") (.ofMessage (Sample.table 1 [])), []⟩
  migratingInfo := ∅
  askedToQuit := false
  history := []
  acked := []
  sent := []

theorem fresh_thread : thread.Fresh := ⟨rfl, rfl, rfl, rfl, rfl, rfl, rfl⟩

/-- The batch is acknowledged, and the migration is committed. -/
def copied : List (Event fun _ _ => 0) :=
  [.run .ok, .run .ok, .run .ok, .run .ok, .run .ok, .run .ok, .run .ok]

/-- The target does not answer, and the quit signal comes. -/
def givenUp : List (Event fun _ _ => 0) :=
  [.run .ok, .run .ok, .run .ok, .quit, .run .failed, .run .ok, .run .ok, .run .ok]

theorem committed_complete_copied :
    ∃ w, ((migration (fun _ _ => 0) 1 task).restrict (Undisturbed task)).Reachable w ∧
      ∃ info, ⟨bytes "k", info⟩ ∈ w.acked := by
  have hC : System.Admits (Undisturbed task) (step 1 task) thread copied :=
    .cons trivial rfl (.cons trivial rfl (.cons trivial rfl (.cons trivial rfl
      (.cons trivial rfl (.cons trivial rfl (.cons trivial rfl trivial))))))
  have hrun : ((System.ofStep thread (step 1 task)).restrict (Undisturbed task)).Run thread _ :=
    System.run_restrict_of_admits hC rfl
  have hreachable : ((migration (fun _ _ => 0) 1 task).restrict (Undisturbed task)).Reachable _ :=
    ⟨thread, fresh_thread, hrun⟩
  obtain ⟨info, hacked, -⟩ := committed_complete hreachable (by decide) (bytes "k") (by decide)
  exact ⟨_, hreachable, info, hacked⟩

theorem given_up_committed : ∃ w, (migration (fun _ _ => 0) 1 task).Reachable w ∧ w.sent ≠ [] ∧
      (∀ cache ∈ w.history, bytes "k" ∈ cache.map) ∧ w.acked = [] := by
  have hrun : (System.ofStep thread (step 1 task)).Run thread _ :=
    System.run_of_foldlM (show givenUp.foldlM _ _ = _ from rfl)
  exact ⟨_, ⟨thread, fresh_thread, hrun⟩, by decide, by decide, rfl⟩

end NodeMigrate.Sample

end Noah
