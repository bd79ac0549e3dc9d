import Nori.Transition.PrimaryBackup
import Nori.Noah.Node.Server

/-!
# Replicas of a partition under concurrent writes

The master of a partition handles writes at the same time. For each of them the slaves execute
`Set` or `Del`, and when all of them have replied `OK` the master executes it as well. All servers
have the same view, so `CheckEpoch` lets the writes through everywhere. No lock, and no number that
a slave could compare, orders the writes of one key on different servers.
-/

namespace Noah

open Butil Container Transition PrimaryBackup System

/-- A server whose view accepts a header for an active partition. -/
structure NodeServer.Serving (header : WriteHeader) (p : Common.Partition) (server : NodeServer) :
    Prop where
  epoch_le : header.epoch ≤ server.metaInfo.version.epoch
  version_le : header.version ≤ server.metaInfo.version.version
  accepted : NodeServer.checkEpoch header.epoch header.version header.tableName header.id.toInt
    server.metaInfo = (true, some p)
  found : p.id ≠ -1
  active : p.state = .kActive

/-- Surroundings in which a write is acknowledged: every target replies `OK`, and so does
leveldb. -/
structure AckEnv extends WriteEnv where
  replied : ∀ i, outcomes i = .replied .ok
  stored : ldb ≠ some false

/-- The writes of a partition. -/
inductive Write
  | set (keyValues : UnorderedMap Bytes Bytes) (expired : Int32)
  | del (keys : List Bytes)

namespace Write

/-- What a write makes of a key: nothing, a value, or no value. -/
def effect (w : Write) (key : Bytes) : Option (Option Bytes) :=
  match w with
  | .set keyValues _ => (keyValues.lookup key).map some
  | .del keys => if key ∈ keys then some none else none

/-- The handler a server runs for a write. -/
def handle (header : WriteHeader) (w : Write) (env : WriteEnv) (server : NodeServer) :
    NodeServer.Status × NodeServer :=
  match w with
  | .set keyValues expired => server.set env ⟨header, keyValues, expired⟩
  | .del keys => server.del env ⟨header, keys⟩

end Write

namespace NodeServer.Serving

variable {header : WriteHeader} {p : Common.Partition} {server : NodeServer}

theorem fill (h : Serving header p server) (env : WriteEnv) :
    server.fill env header = (some p, server) := by
  have hle := h.epoch_le
  have hle' := h.version_le
  -- the header is not newer than the view, so no update is due
  have hcurrent : ¬(server.metaInfo.version.epoch < header.epoch ∨
      server.metaInfo.version.version < header.version) := by omega
  simp only [NodeServer.fill, if_neg hcurrent, h.accepted, if_true, Option.getD_some]

/-- The master of the partition passes its fan-out where everybody replies `OK`, and the slaves
have none. -/
theorem forwarded (env : AckEnv) : server.forwarded env.toWriteEnv header p = true := by
  by_cases hmaster : server.selfNode = p.master
  · rw [forwarded_iff hmaster]
    by_cases hnil : server.targets header p = []
    · exact .inl hnil
    · refine .inr ⟨⟨0, List.length_pos_iff.mpr hnil, by rw [env.replied]; rfl⟩, ?_⟩
      intro i _ status hstatus
      rw [env.replied] at hstatus
      cases hstatus
      rfl
  · rw [NodeServer.forwarded, if_neg hmaster]

section

variable (h : Serving header p server) (env : AckEnv)
include h

theorem admitted {bound : ℕ} (hbound : 0 < bound) :
    Admitted bound env.toWriteEnv header server p := by
  refine ⟨by rw [h.fill], h.found, ?_, env.stored⟩
  rwa [h.active]

theorem handle_ok (w : Write) : (w.handle header env.toWriteEnv server).1 = .ok := by
  cases w with
  | set keyValues expired => exact set_eq_ok_iff.mpr ⟨p, h.admitted env Nat.one_pos, forwarded env⟩
  | del keys => exact del_eq_ok_iff.mpr ⟨p, h.admitted env Nat.two_pos, forwarded env⟩

theorem handle (w : Write) : Serving header p (w.handle header env.toWriteEnv server).2 := by
  have hview : (w.handle header env.toWriteEnv server).2.metaInfo = server.metaInfo := by
    cases w with
    | set keyValues expired =>
      simp only [Write.handle, set, h.fill]
      split_ifs <;> rfl
    | del keys =>
      simp only [Write.handle, del, h.fill]
      split_ifs <;> rfl
  exact ⟨hview ▸ h.epoch_le, hview ▸ h.version_le, hview ▸ h.accepted, h.found, h.active⟩

theorem value_handle (w : Write) (key : Bytes) :
    ((w.handle header env.toWriteEnv server).2.cache header.tableName header.id).value key =
      (w.effect key).getD ((server.cache header.tableName header.id).value key) := by
  have hok := h.handle_ok env w
  cases w with
  | set keyValues expired =>
    have hcache := cache_set hok
    simp only [Write.handle] at hcache ⊢
    rw [hcache, Cache.value_set, Write.effect]
    cases keyValues.lookup key <;> rfl
  | del keys =>
    have hcache := cache_del hok
    simp only [Write.handle] at hcache ⊢
    rw [hcache, Cache.value_del, Write.effect]
    split <;> rfl

end

end NodeServer.Serving

/-- The servers of a partition, observed through the values of its cache. -/
def serverStore (header : WriteHeader) (p : Common.Partition) :
    Store { server : NodeServer // server.Serving header p } Write AckEnv Bytes (Option Bytes) where
  run w env server := ⟨(w.handle header env.toWriteEnv server.1).2, server.2.handle env w⟩
  obs server key := (server.1.cache header.tableName header.id).value key
  effect := Write.effect
  obs_run w env server key := server.2.value_handle env w key

/-- The replicas of a partition, and the requests in progress. -/
abbrev PartitionState (ρ ν : Type) (header : WriteHeader) (p : Common.Partition) :=
  PrimaryBackup.State ρ ν { server : NodeServer // server.Serving header p }

/-- The master handles the requests `writes`, in any interleaving of forwarding them, of the slaves
applying them, and of the master applying and acknowledging them. -/
def replicaSystem {ρ : Type} (ν : Type) [DecidableEq ρ] [DecidableEq ν] (header : WriteHeader)
    (p : Common.Partition) (writes : ρ → Write) :
    System (PartitionState ρ ν header p) (Label ρ ν AckEnv) :=
  system (serverStore header p) writes

/-- Requests that are in flight together set every key they share to the same value. -/
def NoConflict {ρ ν : Type} {header : WriteHeader} {p : Common.Partition} (writes : ρ → Write)
    (c : PartitionState ρ ν header p) : Label ρ ν AckEnv → Prop :=
  Compatible (serverStore header p) writes c

/-- **Replicas converge** without conflicts. In every run in which no two requests in flight
together write a key differently, the master and every slave have the same value for every key
once all requests that were started are acknowledged. -/
theorem replicas_converge {ρ ν : Type} [DecidableEq ρ] [DecidableEq ν] {header : WriteHeader}
    {p : Common.Partition} {writes : ρ → Write} {c : PartitionState ρ ν header p}
    (h : ((replicaSystem ν header p writes).restrict (NoConflict writes)).Reachable c)
    (hquiet : c.Quiet) (slave : ν) (key : Bytes) :
    ((c.backups slave).1.cache header.tableName header.id).value key =
      (c.primary.1.cache header.tableName header.id).value key :=
  converged h hquiet slave key

/-! ## Two writes of one key -/

namespace Sample

/-- A partition with one slave. -/
def partition : Common.Partition := ⟨0, .kActive, node 1, [node 2]⟩

/-- The servers of the partition, by port. -/
def replica (port : Int32) : { server : NodeServer // server.Serving header partition } :=
  ⟨serverOf port [node 2], le_rfl, le_rfl, rfl, by decide, rfl⟩

def ackEnv : AckEnv where
  now := 1
  update := none
  outcomes _ := .replied .ok
  ldb := none
  replied _ := rfl
  stored := by decide

/-- Two `Set` requests of one key. -/
def writes (b : Bool) : Write :=
  .set (UnorderedMap.assign ∅ (bytes "k") (if b then bytes "a" else bytes "b")) 0

/-- Nothing was requested yet. -/
def idle : PartitionState Bool Unit header partition :=
  ⟨replica 1, fun _ => replica 2, fun _ => .pending, fun _ _ => false⟩

/-- A request arrives at the slave, and then at the master. -/
def applyOn (b : Bool) (c : PartitionState Bool Unit header partition) :
    PartitionState Bool Unit header partition :=
  c.apply (serverStore header partition) (writes b) b () ackEnv

def commitOn (b : Bool) (c : PartitionState Bool Unit header partition) :
    PartitionState Bool Unit header partition :=
  c.commit (serverStore header partition) (writes b) b ackEnv

/-- The requests reach the slave in one order and the master in the other. -/
def crossed : PartitionState Bool Unit header partition :=
  commitOn true (commitOn false (applyOn false (applyOn true ((idle.forward true).forward false))))

/-- One request after the other. -/
def inTurn : PartitionState Bool Unit header partition :=
  commitOn false (applyOn false ((commitOn true (applyOn true (idle.forward true))).forward false))

theorem idle_init : (replicaSystem Unit header partition writes).init idle :=
  ⟨fun _ _ => rfl, fun _ => rfl, fun _ _ => rfl⟩

end Sample

open Sample

theorem replicas_converge_inTurn : inTurn.Quiet ∧
      ((inTurn.backups ()).1.cache (bytes "t") 0).value (bytes "k") =
        (inTurn.primary.1.cache (bytes "t") 0).value (bytes "k") := by
  have hquiet : inTurn.Quiet := by rintro (_ | _) <;> decide
  have hfirst : NoConflict writes idle (.forward true) := by
    -- nothing else is in flight when a request starts
    rintro (_ | _) ⟨⟩
  have hsecond : NoConflict writes (commitOn true (applyOn true
      (idle.forward true))) (.forward false) := by
    rintro (_ | _) ⟨⟩
  have hstart : ((replicaSystem Unit header partition writes).restrict
      (NoConflict writes)).Reachable idle := ⟨_, idle_init, .refl _⟩
  have hreach : ((replicaSystem Unit header partition writes).restrict
      (NoConflict writes)).Reachable inTurn :=
    (((((hstart.step (restrict_step (step_forward rfl) hfirst)).step
      (restrict_step (step_apply ackEnv rfl rfl) trivial)).step
      (restrict_step (step_commit ackEnv rfl fun _ => rfl) trivial)).step
      (restrict_step (step_forward rfl) hsecond)).step
      (restrict_step (step_apply ackEnv rfl rfl) trivial)).step
      (restrict_step (step_commit ackEnv rfl fun _ => rfl) trivial)
  exact ⟨hquiet, replicas_converge hreach hquiet () (bytes "k")⟩

/-- The slave ends up with the value that was forwarded last, the master with the one it applied
last. -/
theorem crossed_diverged : (replicaSystem Unit header partition writes).Reachable crossed ∧
      crossed.Quiet ∧
      ((crossed.backups ()).1.cache (bytes "t") 0).value (bytes "k") = some (bytes "b") ∧
      (crossed.primary.1.cache (bytes "t") 0).value (bytes "k") = some (bytes "a") := by
  have hquiet : crossed.Quiet := by rintro (_ | _) <;> decide
  refine ⟨?_, hquiet, rfl, rfl⟩
  have hstart : (replicaSystem Unit header partition writes).Reachable
    idle := .start idle_init
  exact (((((hstart.step (step_forward rfl)).step (step_forward rfl)).step
    (step_apply ackEnv rfl rfl)).step (step_apply ackEnv rfl rfl)).step
      (step_commit ackEnv rfl fun _ => rfl)).step (step_commit ackEnv rfl fun _ => rfl)

end Noah
