import Mathlib.Data.List.Infix
import Nori.Braft.Segment.Append

/-!
# Truncating segments

Segments are unlinked from the front when the log is truncated at its beginning, and from the back
when it is truncated at its end. Each disk on the way still has a layout, and its log is the old
one, the new one or one in between.
-/

namespace Braft.Segments

open Butil Files Container SegmentLogStorage Layout Chunk FileSystem List FileName

variable {cfg : Config} {Q : ListLog LogEntry → Prop} {P : Option ℕ → Table FileName → Prop}
  {L : Layout} {c : Chunk} {A B cs : List Chunk} {s : SegmentLogStorage} {fs fs' : Fs}
  {log : ListLog LogEntry} {listed : Bool} {record : Option ℕ} {a b k : ℕ}

/-! ## Layouts on the way -/

namespace Layout

/-- The log begins at a later index. -/
def setFirst (L : Layout) (k : ℕ) (hk : L.first ≤ k) : Layout :=
  { L with first := k, start_le := L.start_le.trans hk }

theorem log_setFirst (hk : L.first ≤ k) : (L.setFirst k hk).log = L.log.truncatePrefix k := by
  have hle := L.start_le
  unfold ListLog.truncatePrefix
  split_ifs with h
  · have heq : k = L.first := le_antisymm h hk
    subst heq
    rfl
  · show ListLog.mk k (L.entries.drop (k - L.start)) = ⟨k, _⟩
    dsimp only [log]
    rw [drop_drop]
    congr 2
    omega

/-- Segments at the front are dropped. -/
def dropClosed (L : Layout) (h : L.closed = A ++ B)
    (hle : L.start + (entriesOf A).length ≤ L.first) : Layout :=
  { L with
    start := L.start + (entriesOf A).length
    closed := B
    start_pos := Nat.lt_of_lt_of_le L.start_pos (Nat.le_add_right _ _)
    start_le := hle
    linked := by
      have hlinked := L.linked
      rw [h, append_assoc] at hlinked
      obtain ⟨m, hA, hB⟩ := linked_append.mp hlinked
      rw [hA.length]
      exact hB
    nonempty := fun c hc => L.nonempty c (h ▸ mem_append_right A hc) }

theorem log_dropClosed (h : L.closed = A ++ B)
    (hle : L.start + (entriesOf A).length ≤ L.first) : (L.dropClosed h hle).log = L.log := by
  have hentries : L.entries = entriesOf A ++ (L.dropClosed h hle).entries := by
    unfold entries chunks dropClosed
    rw [h, append_assoc, entriesOf_append]
  show ListLog.mk L.first ((L.dropClosed h hle).entries.drop
    (L.first - (L.start + (entriesOf A).length))) = ⟨L.first, _⟩
  have hbefore : (entriesOf A).drop (L.first - L.start) = [] := drop_of_length_le (by omega)
  rw [hentries, drop_append, hbefore, nil_append, Nat.sub_sub]

theorem log_of_finish_le (h : L.finish ≤ L.first) : L.log = ⟨L.first, []⟩ := by
  have hlen := L.length_entries
  unfold log
  rw [drop_of_length_le (by omega)]

/-- A log without segments. -/
def bare (first : ℕ) (hpos : 0 < first) : Layout :=
  ⟨first, first, first, [], none, hpos, le_refl _, rfl, nofun⟩

theorem tidy_bare (hpos : 0 < a) : (bare a hpos).Tidy := ⟨le_refl _, nofun⟩

theorem log_bare (hpos : 0 < a) : (bare a hpos).log = ⟨a, []⟩ := by
  show ListLog.mk a (([] : List LogEntry).drop (a - a)) = _
  rw [drop_nil]

/-- Other segments in the place of these. -/
def withChunks (L : Layout) (A : List Chunk) (current : Option Chunk)
    (hlinked : Linked L.start (A ++ current.toList) b) (hne : ∀ c ∈ A, c.entries ≠ []) : Layout :=
  { L with finish := b, closed := A, current, linked := hlinked, nonempty := hne }

section WithChunks

variable {current : Option Chunk} {hlinked : Linked L.start (A ++ current.toList) b}
  {hne : ∀ c ∈ A, c.entries ≠ []}

section

variable (hentries : entriesOf (A ++ current.toList) <+: L.entries)
include hentries

theorem log_withChunks_isPrefix :
    (L.withChunks A current hlinked hne).log.entries <+: L.log.entries :=
  hentries.drop _

theorem truncateSuffix_isPrefix (hb : k + 1 ≤ b) :
    (L.log.truncateSuffix k).entries <+: (L.withChunks A current hlinked hne).log.entries := by
  have hlen := (L.withChunks A current hlinked hne).length_entries
  have hstart := L.start_le
  have htake := take_prefix (k + 1 - L.first) L.log.entries
  refine prefix_of_prefix_length_le htake (log_withChunks_isPrefix hentries) ?_
  show (L.log.entries.take (k + 1 - L.first)).length ≤
    ((L.withChunks A current hlinked hne).entries.drop (L.first - L.start)).length
  change L.start + (L.withChunks A current hlinked hne).entries.length = b at hlen
  rw [length_take, length_drop]
  omega

theorem log_withChunks_eq (hk : L.first ≤ k + 1) (hb : b = k + 1) :
    (L.withChunks A current hlinked hne).log = L.log.truncateSuffix k := by
  set L' := L.withChunks A current hlinked hne
  have hlen := L'.length_entries
  change L.start + L'.entries.length = b at hlen
  have hstart := L.start_le
  have heq : (L.log.truncateSuffix k).entries = L'.log.entries := by
    refine (truncateSuffix_isPrefix hentries (le_of_eq hb.symm)).eq_of_length_le ?_
    show (L'.entries.drop (L.first - L.start)).length ≤
      (L.log.entries.take (k + 1 - L.first)).length
    have hpre : (L'.entries.drop (L.first - L.start)).length ≤
        L.log.entries.length := (log_withChunks_isPrefix hentries).length_le
    rw [length_take]
    rw [length_drop] at hpre ⊢
    omega
  show ListLog.mk L.first L'.log.entries = ⟨L.first, (L.log.truncateSuffix k).entries⟩
  rw [heq]

end

end WithChunks

end Layout

/-! ## Unlinking -/

theorem openPopped_none (h : L.current = none) : (L.storage listed).openPopped = [] := by
  unfold openPopped storage
  rw [h]
  rfl

theorem openPopped_some (h : L.current = some c) : (L.storage listed).openPopped =
    c.segment true :: if listed then [c.segment true] else [] := by
  unfold openPopped storage
  rw [h]
  cases listed <;> rfl

section Unlink

theorem first_notMem (cfg : Config) (current : Option Chunk) (tail : Bytes)
    (hlinked : Linked a (c :: cs) b) (hne : c.entries ≠ []) : (c.segment false).fileName ∉
      ([] ++ filesOf cfg cs current tail).map Prod.fst := by
  rw [nil_append, filesOf, map_append, mem_append]
  rintro (hmem | hmem)
  · refine closed_notMem (fun c' hc' => ?_) hmem
    have := hlinked.2.mem_range hc'
    have := c.first_lt_next hne
    omega
  · obtain ⟨_, hin, hname⟩ := mem_map.mp hmem
    obtain ⟨c', -, rfl⟩ := mem_map.mp hin
    cases hname

theorem last_notMem (cfg : Config) (hlinked : Linked a (cs ++ [c]) b)
    (hne : ∀ c ∈ cs, c.entries ≠ []) : (c.segment false).fileName ∉
      (cs.map (closedFile cfg) ++ []).map Prod.fst := by
  rw [append_nil]
  refine closed_notMem fun c' hc' => ?_
  have := (linked_concat.mp hlinked).1.mem_range hc'
  have := c'.first_lt_next (hne c' hc')
  omega

theorem open_missing (hshows : Shows IsTmp record (filesOf cfg cs none []) fs.disk) :
    fs.disk.files (c.segment true).fileName = none := by
  cases hfile : fs.disk.files (c.segment true).fileName with
  | none => rfl
  | some content =>
    have hmem := (hshows.files_iff _ _ (Segment.not_isTmp_fileName _)).mp hfile
    exact absurd (mem_map_of_mem hmem) (inprogress_notMem_append cfg cs c.first)

theorem unlinkAll_append (popped popped' : List Segment) : unlinkAll cfg (popped ++ popped') fs =
      unlinkAll cfg popped' (unlinkAll cfg popped fs) :=
  foldl_append

variable (henv : cfg.env.Reliable)
include henv

theorem unlink_spec {seg : Segment} {table table' : Table FileName} {content : Bytes}
    (hshows : Shows IsTmp record (table ++ (seg.fileName, content) :: table') fs.disk)
    (hfresh : seg.fileName ∉ (table ++ table').map Prod.fst)
    (hb : P record (table ++ (seg.fileName, content) :: table')) (ha : P record (table ++ table')) :
    ∃ fs', seg.unlink cfg fs = (true, fs') ∧ fs.Reaches IsTmp P record (table ++ table') fs' := by
  have htmp : (tmp seg.fileName).IsTmp := rfl
  obtain ⟨fs₁, hexec, hshows₁, hvia₁⟩ := exec_hide henv hshows
    seg.not_isTmp_fileName hfresh htmp hb ha
  obtain ⟨hshows', hvia'⟩ := exec_unlink_hidden cfg.env hshows₁ htmp ha
  refine ⟨_, ?_, hshows', hvia₁.trans hvia'⟩
  unfold Segment.unlink
  rw [hexec]

theorem unlink_missing {seg : Segment}
    (h : fs.disk.files seg.fileName = none) :
    seg.unlink cfg fs = (false, { fs with tried := fs.tried + 1 }) := by
  unfold Segment.unlink
  rw [FileSystem.exec, henv, Disk.apply, h]
  rfl

theorem unlinkAll_closed {current : Option Chunk}
    (hshows : Shows IsTmp record (filesOf cfg (A ++ B) current []) fs.disk)
    (hlinked : Linked a (A ++ B) b) (hne : ∀ c ∈ A ++ B, c.entries ≠ [])
    (hP : ∀ A₁ A₂, A = A₁ ++ A₂ → P record (filesOf cfg (A₂ ++ B) current [])) :
    ∃ fs', unlinkAll cfg (A.map (segment false)) fs = fs' ∧
      fs.Reaches IsTmp P record (filesOf cfg B current []) fs' := by
  induction A generalizing fs a with
  | nil => exact ⟨fs, rfl, hshows, .refl ⟨_, _, hP [] [] rfl, hshows⟩⟩
  | cons c A ih =>
    have hbefore := hP [] (c :: A) rfl
    obtain ⟨fs₁, hunlink, hshows₁, hvia₁⟩ := unlink_spec henv hshows
      (first_notMem cfg current [] hlinked (hne c mem_cons_self)) hbefore (hP [c] A rfl)
    obtain ⟨fs', hrest, hshows', hvia'⟩ := ih hshows₁ hlinked.2
      (fun c' hc' => hne c' (mem_cons_of_mem _ hc'))
      (fun A₁ A₂ hA => hP (c :: A₁) A₂ (by rw [hA]; rfl))
    refine ⟨fs', ?_, hshows', hvia₁.trans hvia'⟩
    rw [map_cons, unlinkAll, foldl_cons, hunlink]
    exact hrest

theorem unlink_open
    (hshows : Shows IsTmp record (filesOf cfg cs (some c) []) fs.disk)
    (hb : P record (filesOf cfg cs (some c) [])) (ha : P record (filesOf cfg cs none [])) :
    ∃ fs', (c.segment true).unlink cfg fs = (true, fs') ∧
      fs.Reaches IsTmp P record (filesOf cfg cs none []) fs' :=
  unlink_spec henv hshows (inprogress_notMem_append cfg cs c.first) hb ha

theorem unlinkAll_segments (listed : Bool)
    (hshows : Shows IsTmp record (filesOf cfg L.closed L.current []) fs.disk)
    (hP : ∀ A₁ A₂, L.closed = A₁ ++ A₂ → P record (filesOf cfg A₂ L.current []))
    (hend : P record (filesOf cfg [] none [])) :
    ∃ fs', unlinkAll cfg (L.closed.map (segment false) ++ (L.storage listed).openPopped) fs = fs' ∧
      fs.Reaches IsTmp P record (filesOf cfg [] none []) fs' := by
  obtain ⟨m, hlinked, -⟩ := linked_append.mp L.linked
  have hne := L.nonempty
  rw [← append_nil L.closed] at hshows hlinked hne
  obtain ⟨fs₁, hclosed, hshows₁, hvia₁⟩ := unlinkAll_closed henv hshows hlinked hne
    fun A₁ A₂ hA => by rw [append_nil]; exact hP A₁ A₂ hA
  have hopen := hP L.closed [] (append_nil _).symm
  rw [unlinkAll_append, hclosed]
  cases hcurrent : L.current with
  | none =>
    rw [hcurrent] at hshows₁
    rw [openPopped_none hcurrent]
    exact ⟨fs₁, rfl, hshows₁, hvia₁⟩
  | some c =>
    rw [hcurrent] at hshows₁ hopen
    obtain ⟨fs₂, hunlink, hshows₂, hvia₂⟩ := unlink_open henv hshows₁ hopen hend
    rw [openPopped_some hcurrent, unlinkAll, foldl_cons, hunlink]
    cases listed with
    | false => exact ⟨fs₂, rfl, hshows₂, hvia₁.trans hvia₂⟩
    | true =>
      -- the second time there is no such file
      refine ⟨{ fs₂ with tried := fs₂.tried + 1 }, ?_, hshows₂, (hvia₁.trans hvia₂).trans ?_⟩
      · rw [if_pos rfl, foldl_cons, unlink_missing henv (open_missing hshows₂)]
        rfl
      · exact ⟨[], (append_nil _).symm, ⟨_, _, hend, hshows₂⟩, rfl⟩

theorem unlinkWhile_closed
    (hshows : Shows IsTmp record (filesOf cfg (A ++ B) none []) fs.disk)
    (hlinked : Linked a (A ++ B) b) (hne : ∀ c ∈ A ++ B, c.entries ≠ [])
    (hP : ∀ B₁ B₂, B = B₁ ++ B₂ → P record (filesOf cfg (A ++ B₁) none [])) :
    ∃ fs', unlinkWhile cfg ((B.map (segment false)).reverse) fs = (true, fs') ∧
      fs.Reaches IsTmp P record (filesOf cfg A none []) fs' := by
  induction B using reverseRecOn generalizing fs b with
  | nil =>
    have hbefore := hP [] [] rfl
    rw [append_nil] at hshows hbefore
    exact ⟨fs, rfl, hshows, .refl ⟨_, _, hbefore, hshows⟩⟩
  | append_singleton B c ih =>
    have hbefore := hP (B ++ [c]) [] (append_nil _).symm
    have hafter := hP B [c] rfl
    have hafter' := hafter
    rw [← append_assoc] at hshows hlinked hne hbefore
    rw [filesOf_concat] at hshows hbefore
    obtain ⟨fs₁, hunlink, hshows₁, hvia₁⟩ := unlink_spec henv hshows
      (last_notMem cfg hlinked fun c' hc' => hne c' (mem_append_left _ hc')) hbefore hafter'
    obtain ⟨fs', hrest, hshows', hvia'⟩ := ih hshows₁ (linked_concat.mp hlinked).1
      (fun c' hc' => hne c' (mem_append_left _ hc'))
      (fun B₁ B₂ hB => hP B₁ (B₂ ++ [c]) (by rw [hB, append_assoc]))
    refine ⟨fs', ?_, hshows', hvia₁.trans hvia'⟩
    rw [map_append, reverse_append, map_singleton, reverse_singleton,
      singleton_append, unlinkWhile, hunlink]
    exact hrest

end Unlink

/-! ## `truncate_prefix` and `reset` -/

section TruncatePrefix

theorem log_truncatePrefix_of_le (h : log.next ≤ k) (hk : log.first ≤ k) :
    log.truncatePrefix k = ⟨k, []⟩ := by
  unfold ListLog.next at h
  unfold ListLog.truncatePrefix
  split_ifs with hle
  · obtain ⟨first, entries⟩ := log
    dsimp only at h hk hle
    obtain rfl : first = k := le_antisymm hk hle
    rw [length_eq_zero_iff.mp (show entries.length = 0 by omega)]
  · rw [drop_of_length_le (by omega)]

theorem popSegments_eq {A B : List Chunk} (hA : L.closed.takeWhile (fun c => c.next - 1 < k) = A)
    (hB : L.closed.dropWhile (fun c => c.next - 1 < k) = B) :
    (L.storage listed).popSegments k =
      let s := { L.storage listed with firstLogIndex := k, segments := B.map (segment false) }
      match s.segments, L.current.map (segment true) with
      | _ :: _, _ => (A.map (segment false), s)
      | [], some seg =>
        if seg.lastIndex < k then (A.map (segment false) ++ s.openPopped,
          ⟨k, k - 1, s.segments, none, false⟩)
        else (A.map (segment false), s)
      | [], none => (A.map (segment false),
          ⟨k, k - 1, s.segments, L.current.map (segment true), listed⟩) := by
  have hfront : (L.closed.map (segment false)).takeWhile (fun seg => seg.lastIndex < k) =
      A.map (segment false) := by
    rw [takeWhile_map, ← hA]
    rfl
  have hback : (L.closed.map (segment false)).dropWhile (fun seg => seg.lastIndex < k) =
      B.map (segment false) := by
    rw [dropWhile_map, ← hB]
    rfl
  unfold popSegments
  dsimp only [storage]
  rewrite [hfront, hback]
  rfl

theorem popSegments_cases (hk : L.first ≤ k) (hlisted : listed = true → L.current ≠ none) :
    (∃ (A B : List Chunk) (h : L.closed = A ++ B) (hle : L.start + (entriesOf A).length ≤ k),
      (L.storage listed).popSegments k = (A.map (segment false),
        ((L.setFirst k hk).dropClosed h hle).storage listed) ∧
      ((L.setFirst k hk).dropClosed h hle).Tidy) ∨
    (L.finish ≤ k ∧ (L.storage listed).popSegments k = (L.closed.map (segment false) ++
      (L.storage listed).openPopped,
      (bare k (lt_of_lt_of_le L.first_pos hk)).storage false)) := by
  set isBefore : Chunk → Bool := fun c => c.next - 1 < k with hisBefore
  have hnext : ∀ c : Chunk, c.next - 1 < k ↔ c.next ≤ k := fun c => by
    have := c.first_pos
    have := c.first_le_next
    omega
  obtain ⟨A, hA⟩ : ∃ A, L.closed.takeWhile isBefore = A := ⟨_, rfl⟩
  obtain ⟨B, hB⟩ : ∃ B, L.closed.dropWhile isBefore = B := ⟨_, rfl⟩
  have hsplit : L.closed = A ++ B := by rw [← hA, ← hB, takeWhile_append_dropWhile]
  have hbefore : ∀ c ∈ A, c.next ≤ k := fun c hc => by
    have hc : isBefore c = true := mem_takeWhile_imp (hA ▸ hc)
    exact (hnext c).mp (of_decide_eq_true hc)
  have hle : L.start + (entriesOf A).length ≤ k := by
    obtain ⟨m, hlinked, -⟩ := linked_append.mp L.linked
    rw [hsplit] at hlinked
    obtain ⟨m', hA, -⟩ := linked_append.mp hlinked
    rw [hA.length]
    exact hA.le_of_forall (L.start_le.trans hk) hbefore
  -- what is left reaches the index if its first segment does
  have htidy : ∀ c rest, B ++ L.current.toList = c :: rest → ¬ c.next ≤ k →
      ((L.setFirst k hk).dropClosed hsplit hle).Tidy := by
    intro c rest hrest hc
    have hafter : Linked (L.start + (entriesOf A).length) (c :: rest) L.finish :=
      hrest ▸ ((L.setFirst k hk).dropClosed hsplit hle).linked
    refine ⟨?_, fun c' hc' hne => ?_⟩
    · have := hafter.2.le
      show k ≤ L.finish
      omega
    · have hmem : c' ∈ c :: rest := hrest ▸ hc'
      show k < c'.next
      rcases mem_cons.mp hmem with rfl | hmem
      · omega
      · have := (hafter.2.mem_range hmem).1
        have := c'.first_le_next
        omega
  rw [popSegments_eq hA hB]
  cases B with
  | cons c B =>
    refine .inl ⟨A, c :: B, hsplit, hle, rfl, htidy c (B ++ L.current.toList) rfl ?_⟩
    have hc := head?_dropWhile_not isBefore L.closed
    rw [hB] at hc
    exact fun h => of_decide_eq_false hc ((hnext c).mpr h)
  | nil =>
    have hall : L.closed = A := hsplit.trans (append_nil A)
    cases hcurrent : L.current with
    | none =>
      refine .inr ⟨(L.linked_closed hcurrent).le_of_forall (L.start_le.trans hk)
        fun c hc => hbefore c (hall ▸ hc), ?_⟩
      have hfalse : listed = false := Bool.eq_false_iff.mpr fun h => hlisted h hcurrent
      rw [openPopped_none hcurrent, hall, hfalse, append_nil (A.map (segment false))]
      rfl
    | some c =>
      by_cases hc : c.next ≤ k
      · refine .inr ⟨(L.linked_current hcurrent).2 ▸ hc, ?_⟩
        refine (if_pos (show (c.segment true).lastIndex < k from (hnext c).mpr hc)).trans ?_
        rw [hall]
        rfl
      · refine .inl ⟨A, [], hsplit, hle, ?_, htidy c [] (by rw [hcurrent]; rfl) hc⟩
        exact if_neg (show ¬ (c.segment true).lastIndex < k from fun h => hc ((hnext c).mp h))

variable (henv : cfg.env.Reliable)
include henv

theorem unlinkAll_dropClosed (h : L.closed = A ++ B)
    (hle : L.start + (entriesOf A).length ≤ L.first) (hdisk : L.OnDisk cfg [] fs.disk)
    (hQ : Q L.log) :
    ∃ fs', unlinkAll cfg (A.map (segment false)) fs = fs' ∧
      (L.dropClosed h hle).OnDisk cfg [] fs'.disk ∧ Passes cfg Q fs fs' := by
  obtain ⟨m, hlinked, -⟩ := linked_append.mp L.linked
  have hne := L.nonempty
  unfold Layout.OnDisk at hdisk
  rw [h] at hdisk hlinked hne
  refine unlinkAll_closed henv hdisk hlinked hne fun A₁ A₂ hA => ?_
  have hclosed : L.closed = A₁ ++ (A₂ ++ B) := by rw [h, hA, append_assoc]
  have hle₁ : L.start + (entriesOf A₁).length ≤ L.first := by
    rw [hA, entriesOf_append, length_append] at hle
    omega
  exact (L.dropClosed hclosed hle₁).recovers cfg (by rw [log_dropClosed]; exact hQ)

theorem unlinkAll_bare (hfinish : L.finish ≤ L.first)
    (hdisk : L.OnDisk cfg [] fs.disk) (hQ : Q L.log) :
    ∃ fs', unlinkAll cfg (L.closed.map (segment false) ++ (L.storage listed).openPopped) fs = fs' ∧
      (bare L.first L.first_pos).OnDisk cfg [] fs'.disk ∧ Passes cfg Q fs fs' := by
  have hlen := L.length_entries
  have hlog := log_of_finish_le hfinish
  refine unlinkAll_segments henv listed hdisk (fun A₁ A₂ hA => ?_) ?_
  · have hle : L.start + (entriesOf A₁).length ≤ L.first := by
      have hsplit : L.entries = entriesOf A₁ ++ entriesOf (A₂ ++ L.current.toList) := by
        unfold entries chunks
        rw [hA, append_assoc, entriesOf_append]
      rw [hsplit, length_append] at hlen
      omega
    exact (L.dropClosed hA hle).recovers cfg (by rw [log_dropClosed]; exact hQ)
  · exact (bare L.first L.first_pos).recovers cfg (by rw [log_bare, ← hlog]; exact hQ)

/-- **Truncating the beginning.** A crash leaves the log from the old or the new first index on. -/
theorem truncatePrefix_spec (h : Holds cfg s fs.disk log L listed)
    (hk : log.first ≤ k) :
    ∃ L' listed' s' fs', s.truncatePrefix cfg k fs = ⟨true, s', fs'⟩ ∧
      Holds cfg s' fs'.disk (log.truncatePrefix k) L' listed' ∧
      Passes cfg (fun log' => log' = log ∨ log' = log.truncatePrefix k) fs fs' := by
  have h₀ := h
  obtain ⟨htidy, rfl, hlisted, hdisk, rfl⟩ := h
  set Q : ListLog LogEntry → Prop := fun log' => log' = L.log ∨ log' = L.log.truncatePrefix k
  replace hk : L.first ≤ k := hk
  unfold truncatePrefix
  by_cases hle : k ≤ L.first
  · refine ⟨L, listed, _, fs, if_pos hle, ?_, .refl hdisk (.inl rfl)⟩
    rwa [ListLog.truncatePrefix, if_pos (show k ≤ L.log.first from hle)]
  rw [if_neg (show ¬ k ≤ (L.storage listed).firstLogIndex from hle)]
  have hlog₁ : (L.setFirst k hk).log = L.log.truncatePrefix k := L.log_setFirst hk
  obtain ⟨fs₁, hsave, hdisk₁, hvia₁⟩ := exec_save henv hdisk k
    (L.recovers (Q := Q) cfg (.inl rfl)) ((L.setFirst k hk).recovers (Q := Q) cfg (.inr hlog₁))
  rw [hsave]
  dsimp only
  rcases popSegments_cases hk hlisted with ⟨A, B, hsplit, hlen, hpop, htidy'⟩ | ⟨hfinish, hpop⟩
  · rw [hpop]
    obtain ⟨fs', hunlink, hdisk', hvia'⟩ := unlinkAll_dropClosed (L := L.setFirst k hk) (Q := Q)
      henv hsplit hlen hdisk₁ (.inr hlog₁)
    exact ⟨_, listed, _, fs', by rw [hunlink], ⟨htidy', rfl, hlisted, hdisk',
      (log_dropClosed _ _).trans hlog₁⟩, hvia₁.trans hvia'⟩
  · rw [hpop]
    obtain ⟨fs', hunlink, hdisk', hvia'⟩ := unlinkAll_bare (L := L.setFirst k hk) (Q := Q) henv
      hfinish hdisk₁ (.inr hlog₁)
    refine ⟨_, false, _, fs', ?_, ⟨tidy_bare _, rfl, nofun, hdisk', ?_⟩, hvia₁.trans hvia'⟩
    · rw [← hunlink]
      rfl
    · rw [log_bare, log_truncatePrefix_of_le _ hk]
      · rfl
      · rw [htidy.next_log]
        exact hfinish

theorem reset_via (listed : Bool) (hdisk : L.OnDisk cfg [] fs.disk)
    (hk : 0 < k)
    (hb : P (some L.first) (filesOf cfg L.closed L.current []))
    (hP : ∀ A₁ A₂, L.closed = A₁ ++ A₂ → P (some k) (filesOf cfg A₂ L.current []))
    (hend : P (some k) (filesOf cfg [] none [])) :
    ∃ fs', (L.storage listed).reset cfg k fs = ⟨true, (bare k hk).storage false, fs'⟩ ∧
      (bare k hk).OnDisk cfg [] fs'.disk ∧
      FileSystem.Via (Shown IsTmp P) fs fs' := by
  obtain ⟨fs₁, hsave, hdisk₁, hvia₁⟩ := exec_save henv hdisk k hb (hP [] _ rfl)
  obtain ⟨fs', hunlink, hdisk', hvia'⟩ := unlinkAll_segments henv listed hdisk₁ hP hend
  refine ⟨fs', ?_, hdisk', hvia₁.trans hvia'⟩
  unfold reset
  rw [if_neg (by omega), hsave]
  rw [← hunlink]
  rfl

/-- **Resetting.** -/
theorem reset_spec (h : Holds cfg s fs.disk log L listed) (hk : 0 < k) :
    ∃ L' listed' s' fs', s.reset cfg k fs = ⟨true, s', fs'⟩ ∧
      Holds cfg s' fs'.disk (ListLog.reset k) L' listed' := by
  obtain ⟨-, rfl, -, hdisk, -⟩ := h
  obtain ⟨fs', hreset, hdisk', -⟩ := reset_via (P := fun _ _ => True) henv listed hdisk
    hk trivial (fun _ _ _ => trivial) trivial
  exact ⟨_, false, _, fs', hreset, tidy_bare hk, rfl, nofun, hdisk', log_bare hk⟩

theorem reset_passes (h : Holds cfg s fs.disk log L listed) (hk : 0 < k)
    (hnext : log.next ≤ k) :
    Passes cfg (fun log' => log' = log ∨ log' = ListLog.reset k) fs (s.reset cfg k fs).fs := by
  obtain ⟨htidy, rfl, -, hdisk, rfl⟩ := h
  have hfirst : L.first ≤ k := by
    have := htidy.next_log
    have := htidy.first_le
    omega
  have hlog : (L.setFirst k hfirst).log = ListLog.reset k :=
    (L.log_setFirst hfirst).trans (log_truncatePrefix_of_le hnext hfirst)
  set Q : ListLog LogEntry → Prop := fun log' => log' = L.log ∨ log' = ListLog.reset k
  have hparts : ∀ A₁ A₂, L.closed = A₁ ++ A₂ →
      Recovers cfg Q (some k) (filesOf cfg A₂ L.current []) := by
    intro A₁ A₂ hA
    obtain ⟨m, hlinked, hlinked'⟩ := linked_append.mp L.linked
    rw [hA] at hlinked
    obtain ⟨m', hA₁, hA₂⟩ := linked_append.mp hlinked
    have hle : L.start + (entriesOf A₁).length ≤ k := by
      have := hA₂.le
      have := hlinked'.le
      have := htidy.next_log
      rw [hA₁.length]
      omega
    exact ((L.setFirst k hfirst).dropClosed hA hle).recovers cfg
      (.inr ((log_dropClosed _ _).trans hlog))
  obtain ⟨fs', hreset, -, hvia⟩ := reset_via henv listed hdisk hk
    (L.recovers (Q := Q) cfg (.inl rfl)) hparts
    ((bare k hk).recovers cfg (.inr (log_bare hk)))
  rw [hreset]
  exact hvia

end TruncatePrefix

end Braft.Segments
