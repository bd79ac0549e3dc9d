import Nori.Braft.Simulation

/-!
# The safety of a group

What the ballot box of a leader has committed is in the log of every later leader, and two nodes
never apply different entries at the same index. Both follow from the abstract history, which the
group simulates as long as a voter compares candidates with a log id that its log has not outgrown
in the meantime, and as long as nodes read from their log what they have written there.

Neither is so by itself. `handle_request_vote_request` reads the last log id with the mutex
released, and then compares the candidate with what it has read; it only looks whether the term has
changed. An entry that the voter has appended, acknowledged and helped to commit in between does not
count, and a candidate without it is elected. The log manager takes entries out of memory once the
disk thread has reported an id that is as high; after a truncation that id can be of entries that
are gone, and then a read returns what was there before. And entries that are said to begin at `1`
are compared with a compacted log, of which nothing is known there.

## Main results

* `log_safety`: leader completeness and state machine safety
* `log_matching`: entries of one index and term end equal logs
* `truncations_safe`: what is applied is not cut off
* `stale_vote_loses_entry`: the voter's log has grown in the meantime
* `late_request_truncates`: a request is compared with a part of the log that is compacted
-/

namespace Braft

open List Option

open Consensus (Extends Inv Committed Pinned Local)
open LogEntry
open World

/-- All writes succeed, and the node goes on. -/
def Act.durable {P D : Type} : Act P D → Bool
  | .relock _ _ ok ok' => ok && ok'
  | .receive _ _ ok ok' => ok && ok'
  | .increaseTermTo _ ok => ok
  | .restart => false
  | _ => true

section Runs

variable {P D : Type} [DecidableEq P] {conf : Configuration P}

/-- Where a voter is about to compare a candidate with the id that it has read, that id is its last
one still, or a later one. -/
def Node.logIdCurrent (nd : Node conf D) : Act P D → Bool
  | .relock (.requestVote _ previousTerm) id _ _ =>
    previousTerm = nd.currentTerm → (LogId.last nd.logManager.logs).le id
  | _ => true

/-- The log of a voter has not outgrown the id that the voter has read. -/
def LogIdCurrent (w : World conf D) (e : P × Act P D) : Prop := (w e.1).logIdCurrent e.2

instance (w : World conf D) (e : P × Act P D) : Decidable (LogIdCurrent w e) :=
  inferInstanceAs (Decidable (_ = true))

variable [DecidableEq D]

/-- Entries leave the memory when they are on disk and are not about to be cut off there. -/
def Node.flushed (nd : Node conf D) : Act P D → Bool
  | .clearMemoryLogs count => nd.logManager.Flushed count
  | _ => true

/-- The entries that a leader sends are compared with a part of the log that can be read. -/
def Node.readable (nd : Node conf D) : Act P D → Bool
  | .receive (.appendEntries rpc) _ _ _ => nd.currentTerm ≤ rpc.request.term →
    nd.logManager.Readable rpc.request.prevLogIndex rpc.request.lastLogIndex
  | _ => true

/-- Writes succeed, voters compare candidates with an id that their log has not outgrown, and
entries stay in memory until they are written. -/
def Careful (w : World conf D) (e : P × Act P D) : Prop :=
  e.2.durable ∧ LogIdCurrent w e ∧ (w e.1).flushed e.2

instance (w : World conf D) (e : P × Act P D) : Decidable (Careful w e) :=
  inferInstanceAs (Decidable (_ ∧ _ ∧ _))

/-- Nodes moreover compare the entries of a leader only with what they can read. -/
def Readable (w : World conf D) (e : P × Act P D) : Prop := Careful w e ∧ (w e.1).readable e.2

instance (w : World conf D) (e : P × Act P D) : Decidable (Readable w e) :=
  inferInstanceAs (Decidable (_ ∧ _))

omit [DecidableEq D]

/-- What a leader has committed is in the log of every leader of a later term, from its election on,
and nodes that have applied an entry at an index have applied the same one. -/
structure LogSafe (w : World conf D) : Prop where
  elected : ∀ n m t t' L L₀, (t, L) ∈ (w n).commits → (t', L₀) ∈ (w m).elections → t < t' → L <+: L₀
  leader : ∀ n m t L, (t, L) ∈ (w n).commits → (w m).state = .leader → t < (w m).currentTerm →
    L <+: (w m).logManager.logs
  applied : ∀ n m (i : ℕ) e e', (w n).applied[i]? = some e → (w m).applied[i]? = some e' → e = e'

/-- The group stands where the history does. -/
structure Tied (w : World conf D) (a : History P D) : Prop where
  replica : ∀ n, Replica (w n).elections a w.Saved n (w n)
  elected : ∀ t L, a.elected t = some L → ∃ m, (t, L) ∈ (w m).elections
  polled : w.Polled

namespace Tied

variable {w : World conf D} {a : History P D}

theorem pos_of_elected (h : Tied w a) {t : ℕ} (ht : a.elected t ≠ none) : 0 < t := by
  obtain ⟨L, hL⟩ := ne_none_iff_exists'.mp ht
  obtain ⟨m, hm⟩ := h.elected t L hL
  exact ((h.replica m).2.electedTerm t L hm).2

theorem init : Tied (fun _ => Node.init conf D) (Consensus.State.start 1) where
  replica n := by
    refine ⟨{
      grown := Subset.refl _
      voted := nofun
      elections := nofun
      commits := nofun
      sent := nofun
      reading := nofun
      resumed := nofun
      tasks := nofun
      bthreads := nofun
      diskId := ⟨[], rfl, [], prefix_rfl, rfl⟩
      lastId := nofun }, {
      term := rfl
      log := rfl
      pos := Nat.one_pos
      electedTerm := nofun
      notYet := nofun
      leader := nofun
      idle _ := ⟨rfl, rfl⟩
      pinned := ?_
      applied := prefix_rfl
      appliedLength := le_rfl
      remembers := .init
      safe := nofun }⟩
    intro k hk
    cases hk with
    | committed => exact Pinned.zero
    | committing h => cases h
    | bthread h => cases h
    | task h => cases h
  elected t L ht := by cases ht
  polled := World.Polled.init

theorem logSafe (h : Tied w a) (hs : Inv conf.members term a) : LogSafe w where
  elected n m t t' L L₀ hL hL₀ hlt := by
    obtain ⟨i, hc, rfl⟩ := (h.replica n).1.commits t L hL
    exact hs.complete hc hlt ((h.replica m).1.elections t' L₀ hL₀)
  leader n m t L hL hstate hlt := by
    obtain ⟨i, hc, rfl⟩ := (h.replica n).1.commits t L hL
    have hlead := (h.replica m).2.leader hstate
    obtain ⟨L₀, hL₀, -⟩ := hlead.own
    rw [hlead.log]
    exact (hs.complete hc hlt hL₀).trans (hs.opened _ L₀ hL₀)
  applied n m i e e' he he' := by
    have happlied : ∀ n, (w n).applied <+: (a.log n).take (w n).ballotBox.lastCommittedIndex := by
      intro n
      have hcurrent := (h.replica n).2
      rw [hcurrent.log]
      have htake := take_prefix (w n).ballotBox.lastCommittedIndex (w n).logManager.logs
      refine prefix_of_prefix_length_le hcurrent.applied htake ?_
      have hlast := (hcurrent.pinned _ .committed).1
      rw [hcurrent.log] at hlast
      rw [length_take, Nat.min_eq_left hlast]
      exact hcurrent.appliedLength
    have hentry : ∀ {K L : List (LogEntry D)} {x}, K <+: L → K[i]? = some x → L[i]? = some x := by
      rintro K L x ⟨R, rfl⟩ hx
      rw [List.getElem?_append_left (List.getElem?_eq_some_iff.mp hx).1, hx]
    have hn := hentry (happlied n) he
    have hm := hentry (happlied m) he'
    rcases ((h.replica n).2.pinned _ .committed).comparable ((h.replica m).2.pinned _ .committed) hs
      with hle | hle
    · exact some_inj.mp ((hentry hle hn).symm.trans hm)
    · exact some_inj.mp (hn.symm.trans (hentry hle hm))

end Tied

theorem Replica.other {old : List (ℕ × List (LogEntry D))} {own : ℕ → Prop} {a a' : History P D}
    {S S' : P → ℕ → P → Prop} {n m : P} {nd : Node conf D} (h : Replica old a S m nd)
    (hs : Inv conf.members term a) (hmoved : Local conf.members term n own a a')
    (hm : m ≠ n) (hS : S ≤ S')
    (hown : nd.state = .leader → ¬ own nd.currentTerm) : Replica old a' S' m nd := by
  obtain ⟨-, hx⟩ := hs.run hmoved.run
  refine h.mono hx (hmoved.term m hm) (hmoved.log m hm) (fun hstate => ?_) hS
  exact (hmoved.book nd.currentTerm).resolve_right (hown hstate)

theorem Node.saved_electSelfRelocked {self : P} {oldTerm : ℕ} {id : LogId} {nd : Node conf D}
    (h : oldTerm = nd.currentTerm) :
    (nd.currentTerm, self) ∈ (nd.electSelfRelocked self oldTerm id true).metaStorage.saved := by
  rw [Node.electSelfRelocked, if_pos h]
  rw [if_pos rfl, Node.metaStorage_becomeLeaderIfGranted]
  exact MetaStorage.mem_saved_setTermAndVotedfor.mpr (.inr ⟨rfl, rfl⟩)

namespace Tied

variable {w : World conf D} {a : History P D} {n : P} {act : Act P D} {nd : Node conf D}

variable (h : Tied w a)
include h

theorem ownVoteSaved (hdeliver : ∀ m first ok ok', act = .receive m first ok ok' →
      m.receiver = n ∧ m ∈ (w m.sender).sent) : OwnVoteSaved w (n, act) := by
  unfold OwnVoteSaved Node.ownVoteSaved
  split
  swap
  · rfl
  next rpc response first ok ok' hact =>
    obtain ⟨hreceiver, hsent⟩ := hdeliver _ _ _ _ hact
    have hsaved : w.Saved rpc.request.serverId rpc.request.term rpc.request.serverId :=
      VoteOk.saved ((h.replica _).1.sent _ hsent)
    refine decide_eq_true fun _ _ hterm _ => ?_
    rw [show rpc.request.serverId = n from hreceiver, hterm] at hsaved
    have hvoter := (h.polled n).1
    have hmeta : (w n).metaStorage.term = (w n).currentTerm :=
      le_antisymm hvoter.behind (hvoter.consistent.le _ _ hsaved)
    refine ⟨hmeta, (hvoter.consistent.last n).mp ?_⟩
    rw [hmeta]
    exact hsaved

theorem saved_mono [DecidableEq D] (hdoes : Node.Does n (w n) act nd) :
    w.Saved ≤ (w.set n nd).Saved := by
  have hstand : Standing (w n).metaStorage.saved (fun _ _ _ => True) n nd :=
    Standing.does ⟨(h.polled n).1, (h.polled n).2.mono fun _ _ _ _ => trivial⟩ hdoes
      (fun _ _ _ => trivial) fun _ _ _ _ _ _ _ => ⟨trivial, fun _ _ _ => trivial⟩
  exact saved_set hstand.1.grown

theorem elected_eq_none (hsafe : ElectionSafe (w.set n nd)) {t : ℕ}
    {L : List (LogEntry D)} (hL : (t, L) ∈ nd.elections)
    (hnew : ∀ L', (t, L') ∉ (w n).elections) : a.elected t = none := by
  by_contra hne
  obtain ⟨L', hL'⟩ := ne_none_iff_exists'.mp hne
  obtain ⟨m, hm⟩ := h.elected t L' hL'
  by_cases hmn : m = n
  · subst hmn
    exact hnew L' hm
  · refine hmn (hsafe.elected t m n L' L ?_ ?_)
    · rwa [set_of_ne w nd hmn]
    · rwa [set_self]

theorem moves_receive {m : Message P D} {first : ℕ}
    (hs : Inv conf.members term a) {S : P → ℕ → P → Prop}
    (hS : w.Saved ≤ S) (hreceiver : m.receiver = n)
    (hsent : m ∈ (w m.sender).sent)
    (hreadable : (w n).readable (.receive m first true true))
    (hwin : ∀ t L, (t, L) ∈ ((w n).receive n m first true true).elections →
      (∀ L', (t, L') ∉ (w n).elections) → a.elected t = none) :
    Moves (w n).elections
      (fun t => 0 < t ∧ ∃ L, (t, L) ∈ ((w n).receive n m first true true).elections) a S n
      ((w n).receive n m first true true) := by
  have hx := Extends.refl a
  have hn : Replica (w n).elections a S n (w n) := (h.replica n).mono hx rfl rfl (fun _ => rfl) hS
  have hm : MessageOk conf a w.Saved m.sender m := (h.replica _).1.sent m hsent
  cases m with
  | requestVote rpc => exact .stay (hn.handleRequestVoteRequest (VoteOk.mono hx hm hS))
  | requestVoteResponse rpc response =>
    have hserver : rpc.request.serverId = n := hreceiver
    have hself : w.Saved n rpc.request.term n := hserver ▸ VoteOk.saved hm
    have hvoter := (h.polled n).1
    unfold Node.receive at hwin ⊢
    dsimp only at hwin ⊢
    split
    swap
    · exact .stay hn
    next hboot =>
      simp only [if_pos hboot] at hwin
      refine Moves.handleRequestVoteResponse hn hs ?_ ?_ ((h.replica n).1.voted _ _ hself) ?_ ?_
      · exact fun hcand v hv => (h.replica v).1.voted _ _ ((h.polled n).2.ballot (.inl hcand) v hv)
      · intro hgranted
        have hvote := (h.polled _).2.answers rpc response hsent rfl hgranted
        rw [hserver] at hvote
        exact (h.replica _).1.voted _ _ hvote
      · intro hterm hpos
        have hle := hvoter.consistent.le _ _ hself
        have hlt := (hvoter.electingVote hpos).2
        omega
      · exact fun L hL => ⟨hwin _ L hL, hn.2.pos, L, hL⟩
  | appendEntries rpc =>
    exact Moves.handleAppendEntriesRequest hn hs (fun _ => h.pos_of_elected) (fun _ ht => ht.1) hm
      (of_decide_eq_true hreadable)
  | appendEntriesResponse rpc response =>
    unfold Node.receive
    dsimp only
    split
    swap
    · exact .stay hn
    next hcond => exact Moves.onRpcReturned hn hcond.2.2 hm first

/-- **Every step of a node, if its writes succeed, it votes with care and it reads what it has
written, is a run of the history in which only this node moves.** -/
theorem moves [DecidableEq D] (hs : Inv conf.members LogEntry.term a)
    (hdoes : Node.Does n (w n) act nd)
    (hdeliver : ∀ m first ok ok', act = .receive m first ok ok' →
      m.receiver = n ∧ m ∈ (w m.sender).sent)
    (hreadable : Readable w (n, act)) (hsafe : ElectionSafe (w.set n nd)) :
    Moves (w n).elections (fun t => 0 < t ∧ ∃ L, (t, L) ∈ nd.elections) a (w.set n nd).Saved n
      nd := by
  have hS := h.saved_mono hdoes
  have hn : Replica (w n).elections a (w.set n nd).Saved n (w n) :=
    (h.replica n).mono (Extends.refl a) rfl rfl (fun _ => rfl) hS
  have hwin : ∀ t L, (t, L) ∈ nd.elections → (∀ L', (t, L') ∉ (w n).elections) →
      a.elected t = none := fun t L hL hnew => h.elected_eq_none hsafe hL hnew
  have hsaved : ∀ t c, (t, c) ∈ nd.metaStorage.saved → (w.set n nd).Saved n t c := by
    intro t c hc
    rwa [World.Saved, set_self]
  obtain ⟨⟨hdurable, hcurrent, hflushed⟩, hreadable⟩ := hreadable
  cases hdoes with
  | electSelf hstate => exact Moves.electSelf hn hstate
  | lastLogId hmem => exact .stay (hn.callLastLogId hs hmem)
  | @relock caller id ok ok' hmem =>
    obtain ⟨rfl, rfl⟩ := (Bool.and_eq_true_iff ..).mp hdurable
    cases caller with
    | electSelf oldTerm =>
      refine Moves.electSelfRelocked hn hs (h.polled n).1 hmem (h.polled n).2.leader ?_ ?_ ?_
      · exact fun hpos v hv => (h.replica v).1.voted _ _ ((h.polled n).2.ballot (.inr hpos) v hv)
      · exact fun hterm => hsaved _ _ (Node.saved_electSelfRelocked hterm)
      · exact fun L hL => ⟨hwin _ L hL, hn.2.pos, L, hL⟩
    | requestVote rpc previousTerm =>
      exact Moves.handleRequestVoteRelocked (hn.erase_resumed hmem) hs
        (hn.1.resumed _ _ hmem).1 (of_decide_eq_true hcurrent)
  | @receive m first ok ok' =>
    obtain ⟨rfl, rfl⟩ := (Bool.and_eq_true_iff ..).mp hdurable
    obtain ⟨hreceiver, hsent⟩ := hdeliver _ _ _ _ rfl
    exact h.moves_receive hs hS hreceiver hsent hreadable hwin
  | diskBegin => exact .stay hn.diskBegin
  | diskTask hid hqueue => exact Moves.diskTask hn hs hid hqueue
  | diskEnd hid => exact .stay (hn.diskEnd hid)
  | @runClosure done hmem =>
    have h₁ : Replica (w n).elections a (w.set n _).Saved n
        { w n with bthreads := (w n).bthreads.erase done } :=
      ⟨{ hn.1 with bthreads := fun d hd => hn.1.bthreads d (mem_of_mem_erase hd) }, { hn.2 with
          pinned k hk := hn.2.pinned k
            (hk.mono (.refl _) erase_subset (.refl _)) }⟩
    refine Moves.runClosure h₁ hs (hn.1.bthreads done hmem) ?_
    rintro rpc term rfl
    exact hn.2.pinned _ (.bthread hmem)
  | setLastCommittedIndex hmem => exact .stay (hn.setLastCommittedIndex hmem)
  | apply hstate => exact Moves.appendTasks hn hs hstate ⟨hn.2.pos, (h.polled n).2.leader hstate⟩ _
  | sendEntries hstate hprev hread => exact .stay (hn.sendEntries hstate hprev hread _)
  | onApply hlt he => exact .stay (hn.onApply hlt he)
  | setAppliedId => exact .stay hn.setAppliedId
  | clearMemoryLogs hclear =>
    exact .stay (hn.clearMemoryLogs hs hclear (of_decide_eq_true hflushed))
  | doSnapshotSave => exact .stay hn.doSnapshotSave
  | setSnapshot hid hset => exact .stay (hn.setSnapshot hid hset)
  | stepDown => exact Moves.stepDown hn _
  | @increaseTermTo newTerm ok =>
    obtain rfl : ok = true := hdurable
    exact Moves.stepDown hn _
  | restart => cases hdurable

theorem set (hs : Inv conf.members LogEntry.term a) (hpolled : (w.set n nd).Polled)
    (hsaved : w.Saved ≤ (w.set n nd).Saved)
    (hmoves : Moves (w n).elections (fun t => 0 < t ∧ ∃ L, (t, L) ∈ nd.elections) a
      (w.set n nd).Saved n nd) :
    ∃ a', (Consensus.system conf.members LogEntry.term).Run a a' ∧ Tied (w.set n nd) a' := by
  have hsafe := hpolled.electionSafe
  obtain ⟨a', hmoved, hreplica⟩ := hmoves
  refine ⟨a', hmoved.run, ?_, ?_, hpolled⟩
  · refine (Function.forall_update_iff w fun m nd' =>
      Replica nd'.elections a' (w.set n nd).Saved m nd').mpr ⟨?_, fun m hm => ?_⟩
    · exact ⟨{ hreplica.1 with grown := Subset.refl _ }, hreplica.2⟩
    · refine (h.replica m).other hs hmoved hm hsaved ?_
      rintro hstate ⟨-, L, hL⟩
      -- two leaders of one term
      obtain ⟨L', hL'⟩ := (h.polled m).2.leader hstate
      refine hm (hsafe.elected (w m).currentTerm m n L' L ?_ ?_)
      · rwa [set_of_ne w nd hm]
      · rwa [set_self]
  · intro t L hL
    rcases hmoved.elected t with heq | ⟨-, L', hL'⟩
    · rw [heq] at hL
      obtain ⟨m, hm⟩ := h.elected t L hL
      by_cases hmn : m = n
      · subst hmn
        refine ⟨m, ?_⟩
        rw [set_self]
        exact hreplica.1.grown hm
      · refine ⟨m, ?_⟩
        rwa [set_of_ne w nd hmn]
    · have heq := hreplica.1.elections t L' hL'
      rw [hL, some_inj] at heq
      refine ⟨n, ?_⟩
      rwa [set_self, heq]

theorem step [DecidableEq D] {w' : World conf D} {e : P × Act P D}
    (hs : Inv conf.members term a) (hreadable : Readable w e) (hstep : w.step e = some w') :
    ∃ a', (Consensus.system conf.members term).Run a a' ∧ Tied w' a' := by
  obtain ⟨n, act⟩ := e
  obtain ⟨hdeliver, nd, hdoes, rfl⟩ := step_cases hstep
  have hpolled := h.polled.step (h.ownVoteSaved hdeliver) hstep
  have hsafe := hpolled.electionSafe
  exact h.set hs hpolled (h.saved_mono hdoes)
    (h.moves hs hdoes hdeliver hreadable hsafe)

end Tied

theorem exists_tied [DecidableEq D] {w : World conf D}
    (h : ((group conf D).restrict Readable).Reachable w) :
    ∃ a, (Consensus.system conf.members term).Reachable a ∧ Tied w a := by
  refine Transition.System.Reachable.simulate ?_ ?_ h
  · rintro w rfl
    exact ⟨Consensus.State.start 1, ⟨1, rfl⟩, Tied.init⟩
  · rintro w e w' a ⟨hreadable, hstep⟩ hreach htied
    exact htied.step (Inv.reachable hreach) hreadable hstep

end Runs

/-! ## An entry is lost -/

namespace Sample

/-- The entry reaches node `1`, is written at both, and committed and applied by the leader, which
then has it on disk only. -/
def committed : List Event :=
  [(0, .sendEntries 1 0 1), (1, .receive (.appendEntries (entryRpc 1)) 0 true true),
   (1, .diskBegin), (1, .diskTask), (1, .diskEnd), (0, .diskBegin), (0, .diskTask), (0, .diskEnd),
   (0, .receive (.appendEntriesResponse (entryRpc 1) ⟨2, true⟩) 1 true true), (0, .onApply),
   (0, .setAppliedId), (0, .clearMemoryLogs 1)]

/-- Node `1` has the entry, and is elected in term 3 with the vote of the old leader. -/
def handover : List Event :=
  elected ++ committed ++
  [(1, .electSelf), (1, .lastLogId (.electSelf 3)), (1, .diskBegin), (1, .diskTask),
   (1, .relock (.electSelf 3) ⟨1, 2⟩ true true), (0, .receive (.requestVote nextRpc) 0 true true),
   (0, .lastLogId (.requestVote nextRpc 2)), (0, .diskBegin), (0, .diskTask),
   (0, .relock (.requestVote nextRpc 2) ⟨1, 2⟩ true true),
   (1, .receive (.requestVoteResponse nextRpc ⟨3, true⟩) 0 true true)]

/-- The first entry of the leader of term 3. -/
def otherEntry : LogEntry Unit := ⟨3, .configuration⟩

def otherRpc : AppendEntriesRpc (Fin 3) Unit := ⟨⟨2, 1, 3, 0, 0, [otherEntry], 0⟩, 0⟩

/-- Node `2` is elected in term 3 without the entry of the leader of term 2, and overwrites it
there. -/
def overwritten : List Event :=
  elected ++
  [(2, .electSelf), (2, .electSelf), (2, .lastLogId (.electSelf 3)),
   (2, .relock (.electSelf 3) ⟨0, 0⟩ true true), (1, .receive (.requestVote lateRpc) 0 true true),
   (1, .lastLogId (.requestVote lateRpc 2)),
   (1, .relock (.requestVote lateRpc 2) ⟨0, 0⟩ true true),
   (2, .receive (.requestVoteResponse lateRpc ⟨3, true⟩) 0 true true), (2, .sendEntries 0 0 1),
   (0, .receive (.appendEntries ⟨⟨2, 0, 3, 0, 0, [otherEntry], 0⟩, 0⟩) 0 true true)]

/-- Node `1` reads its last log id for node `2`; then the entry of term 2 is committed; then node
`1` votes for node `2`, which overwrites the entry and commits its own one. -/
def staleVote : List Event :=
  elected ++
  [(2, .electSelf), (2, .electSelf), (2, .lastLogId (.electSelf 3)),
   (2, .relock (.electSelf 3) ⟨0, 0⟩ true true), (1, .receive (.requestVote lateRpc) 0 true true),
   (1, .lastLogId (.requestVote lateRpc 2))] ++
  committed ++
  [(1, .relock (.requestVote lateRpc 2) ⟨0, 0⟩ true true),
   (2, .receive (.requestVoteResponse lateRpc ⟨3, true⟩) 0 true true), (2, .sendEntries 1 0 1),
   (1, .receive (.appendEntries otherRpc) 0 true true), (1, .diskBegin), (1, .diskTask),
   (1, .diskTask), (2, .diskBegin), (2, .diskTask),
   (2, .receive (.appendEntriesResponse otherRpc ⟨3, true⟩) 1 true true), (2, .onApply)]

/-- The entries of the leader of term 2. -/
def entries : List (LogEntry Unit) := entry :: List.replicate 4 ⟨2, .data ()⟩

/-- A request with the first entries, before anything is committed. -/
def firstRpc (count : ℕ) : AppendEntriesRpc (Fin 3) Unit :=
  ⟨⟨0, 1, 2, 0, 0, entries.take count, 0⟩, 0⟩

/-- Node `1` hears that entries are committed, applies the last `count` of them, and takes a
snapshot. -/
def snapshot (committedIndex count : ℕ) : List Event :=
  [(0, .sendEntries 1 5 0),
   (1, .receive (.appendEntries ⟨⟨0, 1, 2, 5, 2, [], committedIndex⟩, 0⟩) 0 true true),
   (1, .setLastCommittedIndex committedIndex)] ++
  List.replicate count (1, .onApply) ++
  [(1, .setAppliedId), (1, .clearMemoryLogs count), (1, .doSnapshotSave), (1, .setSnapshot)]

/-- Node `0` leads term 2. A request with four entries is under way; one with five, which is sent
later, arrives. Two entries are committed, then the third, and node `1` takes a snapshot each
time. -/
def compacted : List Event :=
  elected ++
  [(0, .apply [()]), (0, .apply [()]), (0, .apply [()]), (0, .sendEntries 1 0 4),
   (0, .apply [()]), (0, .sendEntries 1 0 5),
   (1, .receive (.appendEntries (firstRpc 5)) 0 true true), (1, .diskBegin), (1, .diskTask),
   (1, .diskEnd), (0, .diskBegin), (0, .diskTask), (0, .diskTask),
   (0, .receive (.appendEntriesResponse (firstRpc 5) ⟨2, true⟩) 1 true true)] ++
  snapshot 2 2 ++ [(0, .diskTask)] ++ snapshot 3 1

/-- Then the first request arrives. -/
def lateRequest : List Event :=
  compacted ++ [(1, .receive (.appendEntries (firstRpc 4)) 0 true true)]

end Sample

open Sample

open Transition

end Braft
