import DistLabs.Kvraft.Linearizable
import DistLabs.Kvraft.Once
import DistLabs.Lib.FirstCopy
import DistLabs.Lib.Wire
import DistLabs.Stack.Refinement

/-!
# kvraft on raft.go

`kvraft/server.go` with the Raft of `raft.go` below it, the handlers and wait channels on its
servers, and the clerks above. In the runs in which no replication goroutine sends after its server
entered a later term and messages on `applyCh` are sent in order, every history of the clerks is
linearizable (`kvraft_on_raft_linearizable`), through snapshots, crashes and restarts. `applier`
does not panic in such a run, and does not block in `notifyWaitCh` while it holds the lock
(`applier_never_stuck`).

The encoding of `labgob` is any encoding whose decoder finds the end of each value.
-/

namespace DistLabs.Kvraft

open Lib

/-! ## The code as a host -/

/-- How `labgob` encodes the two maps. -/
structure Gob where
  kvdb : Wire (GoMap GoString GoString)
  lastRequestMap : Wire (GoMap Int Int)

/-- `encodeState` encodes one map after the other, and `readPersist` decodes them. -/
def Gob.wire (gob : Gob) : Wire Store :=
  (gob.kvdb.prod gob.lastRequestMap).via (fun kv => (kv.kvdb, kv.lastRequestMap))
    (fun x => ⟨x.1, x.2⟩) fun _ => rfl

/-- The codec of a store. -/
def Gob.codec (gob : Gob) : Codec Store Bytes := gob.wire.codec

/-- `readPersist` returns at once when there are no bytes. -/
def data (b : Bytes) : Option Bytes := if b = [] then none else some b

/-- The body of the loop of `applier`, with the operation that `notifyWaitCh` gets. The conversion
of a command that is no `Op` panics. -/
def applyMsg (gob : Gob) (kv : KVServer) : ApplyMsg Op → Option (KVServer × Option Op)
  | .command command index _ =>
    if index ≤ kv.lastIncludedIndex then some (kv, none)
    else command.map fun op =>
      (kv.applier gob.codec (.ofCommand index op), (kv.store.execute op).2)
  | .snapshot snapshot _ index =>
    some (kv.applier gob.codec
      { snapshotValid := true, snapshot := data snapshot, snapshotIndex := index }, none)

/-- `kvraft` on top of Raft. -/
def kvHost (gob : Gob) : ServiceHost KVServer Op Op GoString where
  start b := .startKVServer gob.codec (data b)
  applier := applyMsg gob
  encodeState kv := some (gob.codec.encode kv.store)
  known kv := kv.store.known
  reply := replyValue
  clientId := Op.clientId
  requestId := Op.requestId

/-- A server that has dealt with the messages up to index `k` has the state `store`. -/
def HasStore (kv : KVServer) (k : Nat) (store : Store) : Prop :=
  kv.store = store ∧ kv.lastIncludedIndex ≤ k

/-- An encoded store is not empty, so `readPersist` reads it. -/
theorem data_encode (gob : Gob) (store : Store) :
    data (gob.codec.encode store) = some (gob.codec.encode store) :=
  if_neg (gob.wire.encode_ne_nil store)

/-- A server on top of Raft is one of the service `kvserver`. -/
theorem kvHost_implements (gob : Gob) : (kvHost gob).Implements kvserver HasStore where
  start := ⟨rfl, Nat.le_refl 0⟩
  restore := by
    rintro kv k store b ⟨rfl, -⟩ hb
    cases hb
    show HasStore (.startKVServer gob.codec (data (gob.codec.encode kv.store))) k kv.store
    rw [data_encode]
    simp only [KVServer.startKVServer, KVServer.readPersist, gob.codec.decode_encode]
    exact ⟨rfl, Nat.zero_le _⟩
  command := by
    rintro kv k store op term kv' res ⟨rfl, hlast⟩ happ
    have hgt : ¬ k + 1 ≤ kv.lastIncludedIndex := by omega
    have happ' : applyMsg gob kv (.command (some op) (k + 1) term) = some (kv', res) := happ
    rw [applyMsg, if_neg hgt, Option.map_some, applier_command, if_neg hgt] at happ'
    cases happ'
    exact ⟨_, _, rfl, rfl, rfl, Nat.le_refl _⟩
  install := by
    rintro kv k store kv₀ j store₀ b term kv' res ⟨rfl, hlast⟩ hlt ⟨rfl, -⟩ hb happ
    cases hb
    have hgt : ¬ j ≤ kv.lastIncludedIndex := by omega
    have happ' : applyMsg gob kv (.snapshot (gob.codec.encode kv₀.store) term j) =
        some (kv', res) :=
      happ
    rw [applyMsg, data_encode] at happ'
    have hsnap : kv.applier gob.codec (.ofSnapshot j (gob.codec.encode kv₀.store)) = _ :=
      applier_snapshot kv j kv₀.store
    rw [ApplyMessage.ofSnapshot, if_neg hgt] at hsnap
    rw [hsnap] at happ'
    cases happ'
    exact ⟨rfl, rfl, Nat.zero_le _⟩
  known := by
    rintro kv k store op ⟨rfl, -⟩
    rfl
  reply := rfl
  clientId := rfl
  requestId := rfl

/-! ## Runs -/

/-- `kvraft` on a cluster of `n` servers, with its clerks. -/
abbrev KVStack (n : Nat) := Stack n KVServer Op Op GoString

/-- The states that orderly runs reach. -/
abbrev OrderlyRun (gob : Gob) {n : Nat} : KVStack n → Prop :=
  Reach (Stack.step (kvHost gob)) Stack.Orderly (.init (kvHost gob))

section
variable {gob : Gob} {n : Nat} {S : KVStack n}

/-- A history is linearizable if its replies come from the log. -/
theorem linearizable_of_inv {net : KVService} (h : Service.Inv kvserver net) :
    Linearizable kvModel (fun _ => []) net.events := by
  refine Linearizable.of_times (point net) (fun p => (storeAt net p).read) net.log.length
    h.clients.times
    ?_ ?_ ?_ ?_ ?_ (fun p => read_of_point_none) ?_
  · intro p x hx
    obtain ⟨heq, hp⟩ := takesEffect_of_point hx
    obtain ⟨t, -, hcall⟩ := opAt_called h hp.1.1
    exact ⟨t, heq ▸ hcall⟩
  · intro p q x y hx hy heq
    obtain ⟨hx₁, hp⟩ := takesEffect_of_point hx
    obtain ⟨hy₁, hq⟩ := takesEffect_of_point hy
    have hop : x.2 = y.2 := opAt_eq_of_id h hp.1.1 hq.1.1 (by rw [← hx₁, ← hy₁, heq])
    rw [← hop] at hq
    rcases Nat.lt_trichotomy p q with hlt | heq | hlt
    · exact absurd hp.1 (hq.2 p hlt)
    · exact heq
    · exact absurd hq.1 (hp.2 q hlt)
  · intro i res t hret
    obtain ⟨p, op, rfl, hp⟩ := exists_point h hret
    obtain ⟨term, hlog⟩ := hp.1.1
    exact ⟨p, (List.getElem?_eq_some_iff.1 hlog).1, op, hp.point⟩
  · intro p x op t hx hcall
    obtain ⟨heq, hp⟩ := takesEffect_of_point hx
    obtain ⟨t', ht', hcall'⟩ := opAt_called h hp.1.1
    rw [heq] at hcall
    obtain ⟨-, rfl⟩ := h.clients.call_unique _ _ _ _ _ hcall hcall'
    exact ht'
  · intro p x res t hx hret
    obtain ⟨heq, hp⟩ := takesEffect_of_point hx
    exact hp.lt_ret h (heq ▸ hret)
  · intro p x hx
    obtain ⟨heq, hp⟩ := takesEffect_of_point hx
    rw [heq]
    exact hp.result h

/-- Every history of the clerks of `kvraft` on `raft.go` is linearizable. -/
theorem kvraft_on_raft_linearizable (h : OrderlyRun gob S) :
    Linearizable kvModel (fun _ => []) S.history := by
  obtain ⟨net, hR, hinv⟩ := exists_refines (kvHost_implements gob) h
  rw [← hR.history]
  exact linearizable_of_inv hinv

/-- `log` explains what the servers have executed: they have executed beginnings of it, its
operations were called by clerks, and every call that has returned is in it. -/
structure Executed (log : List Op) (S : KVStack n) : Prop where
  store : ∀ i, (S.group.replicas i).applied ≤ log.length ∧
    (S.group.replicas i).state.store = stateAt log (S.group.replicas i).applied
  called : ∀ op ∈ log, .call op.id op ∈ S.history
  acknowledged : ∀ i res, .ret i res ∈ S.history → ∃ op ∈ log, op.id = i

/-- The service keeps its requests in `lastRequestMap`. -/
theorem kvserver_remembers : kvserver.Remembers Store.lastRequestMap where
  init := rfl
  execute := by
    intro kv op kv' res hexec
    rw [← show kv.apply op = kv' from congrArg Prod.fst (Option.some.inj hexec)]
    exact apply_lastRequestMap kv op
  known := by
    intro kv op res hknown
    have hknown' : kv.known op = some res := hknown
    unfold Store.known at hknown'
    split at hknown'
    · next hinvalid => exact hinvalid.2
    · cases hknown'

/-- The log of the service that a state refines is one that all servers execute. -/
theorem Refines.executed {net : KVService} (hR : Refines (kvHost gob) kvserver HasStore S net)
    (hinv : Service.Inv kvserver net) : Executed (net.log.map (·.op)) S := by
  refine ⟨fun i => ?_, fun op hop => ?_, fun i res hret => ?_⟩
  · have hi := hR.agree.replica i
    obtain ⟨store, hstore, hrel⟩ := hi.state
    rw [kvserver_stateAt] at hstore
    cases hstore
    exact ⟨by rw [List.length_map]; exact hi.le, hrel.1⟩
  · obtain ⟨e, he, rfl⟩ := List.mem_map.1 hop
    obtain ⟨p, hp⟩ := List.getElem?_of_mem he
    obtain ⟨t, -, hcall⟩ := hinv.logged p e hp
    exact hR.history ▸ List.mem_map_of_mem hcall
  · rw [← hR.history] at hret
    obtain ⟨⟨_, t⟩, hmem, rfl⟩ := List.mem_map.1 hret
    obtain ⟨op, t₀, source, hcall, -⟩ := hinv.rets i res t hmem
    obtain ⟨hid, -⟩ := hinv.clients.call _ _ _ hcall
    obtain ⟨q, -, ⟨term, hq⟩, -⟩ := Service.exists_copy hinv kvserver_remembers hcall hmem
    exact ⟨op, List.mem_map.2 ⟨_, List.mem_of_getElem? hq, rfl⟩, hid.symm⟩

/-- Nothing that a server has executed and no call that has returned is lost later, or changes its
place. -/
theorem executed_never_lost {S' : KVStack n} (h : OrderlyRun gob S)
    (hlater : Reach (Stack.step (kvHost gob)) Stack.Orderly S S') :
    ∃ log log', log <+: log' ∧ Executed log S ∧ Executed log' S' := by
  obtain ⟨net, net', hgrown, hR, hinv, hR', hinv'⟩ :=
    exists_refines_later (kvHost_implements gob) h hlater
  exact ⟨_, _, hgrown.map _, Refines.executed hR hinv, Refines.executed hR' hinv'⟩

/-- `applier` deals with every message that it receives. -/
theorem applier_never_stuck (h : OrderlyRun gob S) (i : Fin n) (msg : ApplyMsg Op)
    (hpc : (S.group.replicas i).pc = .received msg) :
    ∃ S', S.step (kvHost gob) (.apply i) = some S' := by
  obtain ⟨net, hR, hinv⟩ := exists_refines (kvHost_implements gob) h
  refine hR.exists_applier hinv hpc ?_
  cases msg with
  | command command index term =>
    obtain ⟨op, rfl, -⟩ := hR.received_called hinv hpc
    show (applyMsg gob _ (.command (some op) index term)).isSome
    simp only [applyMsg]
    split <;> rfl
  | snapshot => rfl

end

/-! ## A run with a snapshot and a crash -/

/-- An encoding of the maps. -/
def someGob : Gob := ⟨.goMap .goString .goString, .goMap .int .int⟩

/-- A client writes. -/
def written : List (StackAction 3 Op) :=
  Stack.elect 0 ++ Stack.replicated 0 ⟨1, 0, .put, [10], [7]⟩ ++ Stack.answered 0

/-- The leader hands over a snapshot, crashes, is started again from it and wins the next election.
Another client reads. -/
def readAgain : List (StackAction 3 Op) :=
  [.group (.snapshot 0 0), .restart 0 0] ++ Stack.elect 1 ++
    Stack.replicated 1 ⟨2, 0, .get, [10], []⟩ ++ Stack.answered 1

/-- Where orderly steps lead to from the state `S`. -/
def after (S : KVStack 3) (run : List (StackAction 3 Op)) : KVStack 3 :=
  reached (Stack.step (kvHost someGob)) Stack.Orderly S run

/-- A value is written, the servers crash, and it is read again. -/
theorem kvraft_throughCrash :
    (after (.init (kvHost someGob)) (written ++ readAgain)).history =
      [.call (1, 0) ⟨1, 0, .put, [10], [7]⟩, .ret (1, 0) [],
        .call (2, 0) ⟨2, 0, .get, [10], []⟩, .ret (2, 0) [7]] ∧
    Linearizable kvModel (fun _ => [])
      (after (.init (kvHost someGob)) (written ++ readAgain)).history :=
  ⟨by decide +kernel, kvraft_on_raft_linearizable (reach_reached _)⟩

/-- The log from before the crash is a beginning of the one after it. -/
theorem executed_never_lost_throughCrash :
    let S := after (.init (kvHost someGob)) written
    let S' := after S readAgain
    S.history = [.call (1, 0) ⟨1, 0, .put, [10], [7]⟩, .ret (1, 0) []] ∧
      (S'.group.replicas 0).applied = 2 ∧
      ∃ log log', log <+: log' ∧ Executed log S ∧ Executed log' S' :=
  ⟨by decide +kernel, by decide +kernel, executed_never_lost (reach_reached _) (reach_reached _)⟩

/-- The applier has received an operation whose handler waits. -/
theorem applier_never_stuck_replicated : ∃ S', (after (.init (kvHost someGob)) (Stack.elect 0 ++
    Stack.replicated 0 ⟨1, 0, .put, [10], [7]⟩)).step (kvHost someGob) (.apply 0) = some S' :=
  applier_never_stuck (reach_reached _) 0 (.command (some ⟨1, 0, .put, [10], [7]⟩) 1 1)
    (by decide +kernel)

end DistLabs.Kvraft
