import Nori.Noah.Node.Server

/-!
# Reads on a node server

`NodeServer::Get` and `NodeServer::List`: like a write, a read has to have a current epoch and table
version, but only the master of its partition answers it. With `open_persistence` the values of
leveldb come after those of the cache in the answer to a `Get`; a `List` never looks there.
-/

namespace Noah

open Butil Container

structure GetRequest extends WriteHeader where
  keys : List Bytes

/-- What a read takes from its surroundings: with `open_persistence`, also whether leveldb could be
read and what it has. -/
structure ReadEnv extends WriteEnv where
  ldbValues : List Bytes

/-- `GetResponse`. -/
structure GetResponse where
  status : NodeServer.Status
  values : List Bytes

structure ListRequest extends WriteHeader, ListInfo

namespace NodeServer

variable {server : NodeServer} {env : ReadEnv}

/-- `Get`: only the master answers. -/
def get (env : ReadEnv) (request : GetRequest) (server : NodeServer) : GetResponse × NodeServer :=
  match server.fill env.toWriteEnv request.toWriteHeader with
  | (none, server) => (⟨.eepoch, []⟩, server)
  | (some p, server) =>
    if p.id = -1 then (⟨.notFound, []⟩, server)
    else if server.selfNode ≠ p.master then (⟨.notMaster, []⟩, server)
    else
      let values := (server.cache request.tableName request.id).get env.now request.keys
      (match env.ldb with
        | none => ⟨.ok, values⟩
        | some true => ⟨.ok, values ++ env.ldbValues⟩
        | some false => ⟨.error, values⟩, server)

/-- An answer starts with the values of the cache. -/
theorem values_of_get_ok {request : GetRequest} (h : (server.get env request).1.status = .ok) :
    ∃ rest, (server.get env request).1.values =
      (server.cache request.tableName request.id).get env.now request.keys ++ rest := by
  have hframe := fill_frame env.toWriteEnv request.toWriteHeader server
  unfold get at h ⊢
  rcases hfill : server.fill env.toWriteEnv request.toWriteHeader with ⟨_ | p, server'⟩
  · simp [hfill] at h
  · simp only [hfill] at h hframe ⊢
    -- the check leaves the caches alone
    have hcache : server'.cache request.tableName request.id =
        server.cache request.tableName request.id := by
      rw [cache, hframe]
      rfl
    split_ifs at h ⊢
    rw [hcache] at h ⊢
    rcases hldb : env.ldb with _ | _ | _
    · exact ⟨[], (List.append_nil _).symm⟩
    · simp [hldb] at h
    · exact ⟨env.ldbValues, rfl⟩

/-- `List`: the status, and the listing of the cache if it is `OK`. -/
def list (env : ReadEnv) (request : ListRequest) (server : NodeServer) :
    (Status × Option Listed) × NodeServer :=
  match server.fill env.toWriteEnv request.toWriteHeader with
  | (none, server) => ((.eepoch, none), server)
  | (some p, server) =>
    if p.id = -1 then ((.notFound, none), server)
    else if server.selfNode ≠ p.master then ((.notMaster, none), server)
    else ((.ok, some ((server.cache request.tableName request.id).list env.now
      request.toListInfo)), server)

end NodeServer

end Noah
