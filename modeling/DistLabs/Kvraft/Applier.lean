import DistLabs.Kvraft.Server
import DistLabs.Lib.ApplyStream
import DistLabs.Lib.Replica
import DistLabs.Lib.Requests
import DistLabs.Lib.Transition

/-!
# Snapshots and replay in kvraft

`stateAt log i` is the state after the first `i` committed operations. `applier` skips what has an
index up to `lastIncludedIndex`, but after a snapshot it sets that to `applyMsg.CommandIndex`,
which is 0 in a snapshot message. From then on late commands are executed again, which the table of
requests makes harmless (`replay`), and late snapshots are installed, which takes the replica back:
`rollback`. In the runs in which no snapshot that is not newer than what was received passes that
check (`NoRollback`), the state is that of the largest index received (`snapshot_replay_agree`).
-/

namespace DistLabs.Kvraft

open Lib

/-! ## The applier -/

/-- The fields of `KVServer` that `applier` works on. -/
structure KVServer where
  store : Store
  lastIncludedIndex : Nat := 0

section
variable {β : Type} (codec : Codec Store β)

namespace KVServer

/-- `readPersist`. -/
def readPersist (kv : KVServer) (data : Option β) : KVServer :=
  match data with
  | none => kv
  | some data =>
    match codec.decode data with
    | none => kv
    | some store => { kv with store }

/-- `StartKVServer`, with the snapshot that the persister has. -/
def startKVServer (snapshot : Option β) : KVServer :=
  readPersist codec { store := .empty } snapshot

/-- The body of the loop of `applier`. Waking handlers up and handing a snapshot to Raft do not
change these fields. -/
def applier (kv : KVServer) (applyMsg : ApplyMessage Op β) : KVServer :=
  if applyMsg.commandValid then
    if applyMsg.commandIndex ≤ kv.lastIncludedIndex then kv
    else
      match applyMsg.command with
      | some op =>
        { store := kv.store.apply op, lastIncludedIndex := applyMsg.commandIndex }
      | none => kv
  else if applyMsg.snapshotValid then
    if applyMsg.snapshotIndex ≤ kv.lastIncludedIndex then kv
    else { kv.readPersist codec applyMsg.snapshot with lastIncludedIndex := applyMsg.commandIndex }
  else kv

end KVServer

end

/-- The state after the first `i` committed operations. -/
def stateAt (log : List Op) (i : Nat) : Store := replica Store.apply .empty log i

/-! ## Replaying operations -/

section
variable {kv : Store} {op : Op}

/-- `updateLastRequest` enters the request into the table. -/
theorem updateLastRequest_eq (kv : Store) (op : Op) : kv.updateLastRequest op =
    { kv with lastRequestMap := enterRequest kv.lastRequestMap op.clientId op.requestId } := by
  unfold Store.updateLastRequest enterRequest
  cases kv.lastRequestMap[op.clientId]? with
  | none => rfl
  | some last =>
    dsimp only
    split <;> rfl

/-- An operation that is not skipped is performed and entered in the table of requests. -/
theorem execute_eq (h : ¬ (op.opType ≠ .get ∧ kv.isInvalidRequest op.clientId op.requestId)) :
    kv.execute op = ((kv.perform op).1.updateLastRequest (kv.perform op).2, (kv.perform op).2) :=
  if_neg h

/-- A `Get` is performed, known or not. It reads, and changes only the table. -/
theorem execute_get (hget : op.opType = .get) : kv.execute op =
    (kv.updateLastRequest op, { op with value := kv.kvdb[op.key]?.getD [] }) := by
  rw [execute_eq fun hskip => hskip.1 hget, updateLastRequest_eq, updateLastRequest_eq]
  simp only [Store.perform, hget]

/-- Performing an operation changes neither the table nor the identity of the operation. -/
theorem perform_spec (kv : Store) (op : Op) :
    (kv.perform op).1.lastRequestMap = kv.lastRequestMap ∧
    (kv.perform op).2.clientId = op.clientId ∧ (kv.perform op).2.requestId = op.requestId := by
  unfold Store.perform
  split <;> exact ⟨rfl, rfl, rfl⟩

/-- The table of requests after an operation: it is skipped only if it is known. -/
theorem apply_lastRequestMap (kv : Store) (op : Op) : (kv.apply op).lastRequestMap =
    enterRequest kv.lastRequestMap op.clientId op.requestId := by
  by_cases hskip : op.opType ≠ .get ∧ kv.isInvalidRequest op.clientId op.requestId
  · rw [Store.apply, Store.execute, if_pos hskip]
    exact (enterRequest_of_known hskip.2).symm
  · obtain ⟨htable, hclient, hrequest⟩ := perform_spec kv op
    rw [Store.apply, execute_eq hskip, updateLastRequest_eq, htable, hclient, hrequest]

/-- An operation is known once it was executed. -/
theorem apply_known (kv : Store) (op : Op) :
    (kv.apply op).isInvalidRequest op.clientId op.requestId := by
  rw [Store.isInvalidRequest, apply_lastRequestMap]
  exact enterRequest_known ..

/-- An operation that is known changes nothing. -/
theorem apply_of_known (h : kv.isInvalidRequest op.clientId op.requestId) : kv.apply op = kv := by
  unfold Store.apply
  by_cases hget : op.opType = .get
  · rw [execute_get hget, updateLastRequest_eq, enterRequest_of_known h]
  · rw [Store.execute, if_pos ⟨hget, h⟩]

/-- What is known stays known. -/
theorem apply_keeps {c r : Int} (h : kv.isInvalidRequest c r) :
    (kv.apply op).isInvalidRequest c r := by
  obtain ⟨r', hr', hle⟩ := h
  obtain ⟨last, hlast, hle'⟩ := enterRequest_le (c := op.clientId) (r := op.requestId) hr'
  rw [Store.isInvalidRequest, apply_lastRequestMap]
  exact ⟨last, hlast, hle.trans hle'⟩

/-- Executing a committed operation again changes nothing. -/
theorem replay {log : List Op} {i m : Nat} (hi : log[i]? = some op) (hm : i < m) :
    (stateAt log m).apply op = stateAt log m := by
  refine apply_of_known ?_
  have hknown : (stateAt log (i + 1)).isInvalidRequest op.clientId op.requestId := by
    rw [stateAt, replica_succ hi]
    exact apply_known _ op
  exact replica_rel (R := fun kv kv' : Store => kv.isInvalidRequest op.clientId op.requestId →
    kv'.isInvalidRequest op.clientId op.requestId) (fun _ h => h) (fun h h' h₀ => h' (h h₀))
    (fun _ _ h => apply_keeps h) hm hknown

end

/-! ## Runs -/

section
variable {β : Type} {codec : Codec Store β} {log : List Op} {m₀ : Nat}

/-- A message arrives at a server. -/
abbrev receive (codec : Codec Store β) (log : List Op) (m₀ : Nat) :
    Fed KVServer → Notice → Option (Fed KVServer) :=
  Fed.step log (fun j => codec.encode (stateAt log j)) (KVServer.applier codec) m₀

/-- No snapshot that is not newer than what was received passes the check of `applier`. -/
def NoRollback (f : Fed KVServer) : Notice → Prop
  | .snapshot j => j ≤ f.received → j ≤ f.server.lastIncludedIndex
  | .command _ => True

instance (f : Fed KVServer) : (n : Notice) → Decidable (NoRollback f n)
  | .snapshot j => inferInstanceAs (Decidable (j ≤ f.received → j ≤ f.server.lastIncludedIndex))
  | .command _ => isTrue trivial

/-- A server before any message: fresh, or started from the snapshot of the first `m₀`
operations. -/
def Started (codec : Codec Store β) (log : List Op) (m₀ : Nat) (f : Fed KVServer) : Prop :=
  f.received = m₀ ∧ (m₀ = 0 ∧ f.server = .startKVServer codec none ∨
    f.server = .startKVServer codec (some (codec.encode (stateAt log m₀))))

/-- `applier` executes a command unless its snapshot covers it. -/
theorem applier_command (kv : KVServer) (i : Nat) (op : Op) :
    kv.applier codec (.ofCommand i op) =
      if i ≤ kv.lastIncludedIndex then kv else ⟨kv.store.apply op, i⟩ := by
  rfl

/-- After a snapshot `lastIncludedIndex` is 0. -/
theorem applier_snapshot (kv : KVServer) (j : Nat) (store : Store) :
    kv.applier codec (.ofSnapshot j (codec.encode store)) =
      if j ≤ kv.lastIncludedIndex then kv else ⟨store, 0⟩ := by
  simp only [KVServer.applier, ApplyMessage.ofSnapshot, KVServer.readPersist, codec.decode_encode]
  rfl

/-- The state is that of the largest index received, and `lastIncludedIndex` is not above it. -/
def Agrees (log : List Op) (f : Fed KVServer) : Prop :=
  f.server.store = stateAt log f.received ∧ f.server.lastIncludedIndex ≤ f.received

/-- A server that starts agrees with the log. -/
theorem Started.agrees {f : Fed KVServer} (h : Started codec log m₀ f) : Agrees log f := by
  obtain ⟨hm, ⟨rfl, hf⟩ | hf⟩ := h
  · rw [Agrees, hf, hm]
    exact ⟨rfl, Nat.le_refl 0⟩
  · rw [Agrees, hf, hm]
    simp only [KVServer.startKVServer, KVServer.readPersist, codec.decode_encode]
    exact ⟨trivial, Nat.zero_le _⟩

/-- A server that agrees with the log still does after a message. -/
theorem Agrees.step {f f' : Fed KVServer} {n : Notice} (h : Agrees log f) (hok : NoRollback f n)
    (hst : receive codec log m₀ f n = some f') : Agrees log f' := by
  obtain ⟨hstore, hlast⟩ := h
  rcases Fed.step_cases hst with ⟨i, op, rfl, -, hi, hop, rfl⟩ | ⟨j, rfl, -, hj, rfl⟩
  · rw [applier_command]
    split
    · next hle => exact ⟨by rw [hstore, Nat.max_eq_left (by omega)], by simp only; omega⟩
    refine ⟨?_, Nat.le_max_right _ _⟩
    simp only
    rcases Nat.lt_or_eq_of_le hi with hlt | rfl
    · rw [hstore, replay hop hlt, Nat.max_eq_left hlt]
    · rw [Nat.max_eq_right (Nat.le_succ _), hstore, stateAt, stateAt, replica_succ hop]
  · rw [applier_snapshot]
    split
    · next hle => exact ⟨by rw [hstore, Nat.max_eq_left (by omega)], by simp only; omega⟩
    · next hgt =>
      have hnew : f.received < j := by
        by_contra hle
        exact hgt (hok (not_lt.1 hle))
      exact ⟨by rw [Nat.max_eq_right hnew.le], Nat.zero_le _⟩

/-- In the runs in which no snapshot that is not newer than what was received passes the check of
`applier`, the state of the server is always that of the largest index received. -/
theorem snapshot_replay_agree {f₀ f : Fed KVServer} (h₀ : Started codec log m₀ f₀)
    (h : Reach (receive codec log m₀) NoRollback f₀ f) :
    f.server.store = stateAt log f.received :=
  (h.invariant h₀.agrees fun hs hok hst => hs.step hok hst).1

end

/-- Two writes of one client. -/
def twoWrites : List Op := [⟨1, 0, .put, [10], [7]⟩, ⟨1, 1, .put, [10], [8]⟩]

/-- A server that starts with nothing. -/
def fresh : Fed KVServer := ⟨.startKVServer Codec.id none, 0⟩

theorem fresh_started : Started Codec.id twoWrites 0 fresh := ⟨rfl, .inl ⟨rfl, rfl⟩⟩

/-- An operation, a snapshot that contains it, and the operation again. -/
def replayed : Fed KVServer :=
  reached (receive Codec.id twoWrites 0) NoRollback fresh [.command 1, .snapshot 2, .command 1]

/-- A command that is received again after the snapshot that covers it is not executed again. -/
theorem replayed_agrees :
    replayed.received = 2 ∧ replayed.server.store = stateAt twoWrites replayed.received := by
  have hreach : Reach (receive Codec.id twoWrites 0) NoRollback fresh replayed := reach_reached _
  exact ⟨by decide +kernel, snapshot_replay_agree fresh_started hreach⟩

/-- A snapshot, and an older one that arrives late. -/
def rollback : Fed KVServer :=
  reached (receive Codec.id twoWrites 0) Always fresh [.snapshot 2, .snapshot 1]

/-- The server is back at the older one. -/
theorem rollback_stale :
    Started Codec.id twoWrites 0 fresh ∧
      Reach (receive Codec.id twoWrites 0) Always fresh rollback ∧
      rollback.received = 2 ∧ rollback.server.store = stateAt twoWrites 1 ∧
      rollback.server.store ≠ stateAt twoWrites 2 :=
  ⟨fresh_started, reach_reached _, by decide +kernel, by decide +kernel, by decide +kernel⟩

end DistLabs.Kvraft
