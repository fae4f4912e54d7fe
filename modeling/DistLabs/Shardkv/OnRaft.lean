import DistLabs.Lib.Wire
import DistLabs.Shardkv.Applier
import DistLabs.Stack.Replicas

/-!
# A group of shardkv on raft.go

The servers of one group with the Raft of `raft.go` below them. All five kinds of commands go
through its log: those of clients, and those that the monitors start. In orderly runs the servers
replay one log, which only grows: a server is in the state after the commands that it has dealt
with, whether it executed them, got them in a snapshot of another server or was started again with
its own snapshot (`group_never_forks`). No command finds a shard missing, so `applier` does not
panic (`group_applier_never_panics`).

The encoding of `labgob` is any encoding whose decoder finds the end of each value.
-/

namespace DistLabs.Shardkv

open Lib Shardctrler

/-! ## The code as a host -/

/-- How `labgob` encodes the fields that a snapshot has. -/
structure Gob where
  shards : Wire (GoMap (Fin NShards) Shard)
  lastRequestMap : Wire (GoMap Int Int)
  config : Wire Config

/-- `encodeState` encodes one field after the other, and `readPersist` decodes them. -/
def Gob.wire (gob : Gob) : Wire Saved :=
  (gob.shards.prod (gob.lastRequestMap.prod (gob.config.prod gob.config))).via
    (fun s => (s.shards, s.lastRequestMap, s.lastConfig, s.currentConfig))
    (fun x => ⟨x.1, x.2.1, x.2.2.1, x.2.2.2⟩) fun _ => rfl

/-- The codec of what is saved. -/
def Gob.codec (gob : Gob) : Codec Saved Bytes := gob.wire.codec

/-- `readPersist` returns at once when there are no bytes. -/
def data (b : Bytes) : Option Bytes := if b = [] then none else some b

/-- The body of the loop of `applier`, with the reply that `notifyWaitCh` gets. The conversion of
what is no `Command` panics. -/
def applyMsg (gob : Gob) (sv : Server) : ApplyMsg Command → Option (Server × Option CommonReply)
  | .command command index _ =>
    if index ≤ sv.lastIncludedIndex then some (sv, none)
    else do
      let command ← command
      let kv ← sv.kv?
      let sv ← sv.applier gob.codec (.ofCommand index command)
      return (sv, some (kv.execute command).2)
  | .snapshot snapshot _ index => do
    let sv ← sv.applier gob.codec
      { snapshotValid := true, snapshot := data snapshot, snapshotIndex := index }
    return (sv, none)

/-- The servers of group `gid` on top of Raft. -/
def groupHost (gob : Gob) (gid : Gid) : Host Server Command CommonReply where
  start b := .startServer gob.codec gid (data b)
  applier := applyMsg gob
  encodeState sv := some (gob.codec.encode sv.toSaved)

/-- Whose command it is. The monitors are no clients. -/
def Command.clientId : Command → Int
  | .getPutAppend op => op.clientId
  | _ => 0

/-- The number of a client's request. The other commands are not requests. -/
def Command.requestId : Command → Int
  | .getPutAppend op => op.requestId
  | _ => 0

/-- A group as a machine. -/
def machine (gid : Gid) : Machine ShardKV Command CommonReply CommonReply where
  init := .startServer gid
  execute kv command := some (kv.execute command)
  known _ _ := none
  reply _ reply := reply
  clientId := Command.clientId
  requestId := Command.requestId

/-- A server that has dealt with the messages up to index `k` has the state `kv`. -/
def HasState (gid : Gid) (sv : Server) (k : Nat) (kv : ShardKV) : Prop :=
  sv.kv? = some kv ∧ kv.gid = gid ∧ sv.lastIncludedIndex ≤ k

/-- What is saved is not empty, so `readPersist` reads it. -/
theorem data_encode (gob : Gob) (saved : Saved) :
    data (gob.codec.encode saved) = some (gob.codec.encode saved) :=
  if_neg (gob.wire.encode_ne_nil saved)

/-- No field but `lastIncludedIndex` is left out of a snapshot. -/
theorem toSaved_eq {sv : Server} {kv : ShardKV} (h : sv.kv? = some kv) :
    sv.toSaved = kv.saved := by
  have hmem := (kv?_spec h).2
  unfold Server.kv? at h
  rw [if_pos hmem] at h
  cases h
  have hshards : sv.shards = allShards fun i => sv.shards[i]?.getD (.make .serving) := by
    refine Std.ExtTreeMap.ext_getElem? fun i => ?_
    obtain ⟨shard, hshard⟩ :=
      Option.isSome_iff_exists.1 (Std.ExtTreeMap.mem_iff_isSome_getElem?.1 (hmem i))
    rw [allShards_getElem?, hshard]
    rfl
  simp only [ShardKV.saved]
  rw [← hshards]

/-- A server on top of Raft is one of the group. -/
theorem groupHost_implements (gob : Gob) (gid : Gid) :
    (groupHost gob gid).Implements (machine gid) (HasState gid) where
  start := ⟨startServer_fresh, rfl, Nat.le_refl 0⟩
  restore := by
    rintro sv k kv b ⟨hkv, hgid, -⟩ hb
    cases hb
    show HasState gid (.startServer gob.codec gid (data (gob.codec.encode sv.toSaved))) k kv
    rw [data_encode, toSaved_eq hkv]
    refine ⟨startServer_saved hgid, hgid, ?_⟩
    simp only [Server.startServer, Server.readPersist, gob.codec.decode_encode]
    exact Nat.zero_le _
  command := by
    rintro sv k kv command term sv' res ⟨hkv, hgid, hlast⟩ happ
    have happ' : applyMsg gob sv (.command (some command) (k + 1) term) = some (sv', res) := happ
    rw [applyMsg, if_neg (show ¬ k + 1 ≤ sv.lastIncludedIndex by omega)] at happ'
    simp only [Option.bind_eq_bind, Option.bind_some, hkv,
      applier_command hkv (k + 1) command (show sv.lastIncludedIndex < k + 1 by omega)] at happ'
    cases happ'
    have hlater : (kv.apply command).gid = kv.gid := (later_apply kv command).gid
    refine ⟨kv.apply command, _, rfl, rfl, ?_, hlater.trans hgid, Nat.le_refl _⟩
    exact kv?_eq_some ((kv?_spec hkv).1.trans hlater.symm) rfl rfl (allShards_getElem? _) rfl
  install := by
    rintro sv k kv sv₀ j kv₀ b term sv' res ⟨hkv, hgid, hlast⟩ hlt ⟨hkv₀, hgid₀, -⟩ hb happ
    cases hb
    have happ' : applyMsg gob sv (.snapshot (gob.codec.encode sv₀.toSaved) term j) =
      some (sv', res) := happ
    have hsnap : sv.applier gob.codec (.ofSnapshot j (gob.codec.encode sv₀.toSaved)) = _ :=
      applier_snapshot j sv₀.toSaved (show sv.lastIncludedIndex < j by omega)
    rw [ApplyMessage.ofSnapshot] at hsnap
    rw [applyMsg, data_encode, hsnap] at happ'
    cases happ'
    refine ⟨rfl, ?_, hgid₀, Nat.le_refl j⟩
    rw [toSaved_eq hkv₀]
    exact kv?_eq_some ((kv?_spec hkv).1.trans (hgid.trans hgid₀.symm)) rfl rfl
      (allShards_getElem? _) rfl

/-- The machine does not panic. -/
theorem machine_stateAt (gid : Gid) (log : List (ServiceEntry Command)) (k : Nat) :
    (machine gid).stateAt log k = some (stateAt gid (log.map (·.op)) k) := by
  have hfold : ∀ (l : List (ServiceEntry Command)) (kv : ShardKV),
      l.foldl (fun s e => s.bind fun s => ((machine gid).execute s e.op).map (·.1)) (some kv) =
        some ((l.map (·.op)).foldl ShardKV.apply kv) := by
    intro l
    induction l with
    | nil => exact fun _ => rfl
    | cons e l ih => exact fun kv => ih (kv.apply e.op)
  rw [stateAt, replica, ← List.map_take]
  exact hfold _ _

/-! ## Runs -/

/-- The states that orderly runs reach. -/
abbrev OrderlyRun (gob : Gob) (gid : Gid) {n : Nat} : ReplicaGroup n Server Command → Prop :=
  Reach (ReplicaGroup.step (groupHost gob gid)) ReplicaGroup.Orderly (.init (groupHost gob gid))

/-- The servers are at states of one log, of commands that servers of the group have started. -/
structure Replays {n : Nat} (gid : Gid) (log : List Command) (g : ReplicaGroup n Server Command) :
    Prop where
  state : ∀ i, (g.replicas i).applied ≤ log.length ∧
    (g.replicas i).state.kv? = some (stateAt gid log (g.replicas i).applied)
  started : ∀ command ∈ log, ∃ i index term, .start i (some command) index term ∈ g.cluster.trace

section
variable {gob : Gob} {gid : Gid} {n : Nat} {g g' : ReplicaGroup n Server Command}

/-- Replicas that agree with a log replay it. -/
theorem replays_of_agree {log : List (ServiceEntry Command)}
    (h : Agree (groupHost gob gid) (machine gid) (HasState gid) log g) :
    Replays gid (log.map (·.op)) g := by
  refine ⟨fun i => ?_, fun command hmem => ?_⟩
  · have hi := h.replica i
    obtain ⟨kv, hkv, hstate, -⟩ := hi.state
    rw [machine_stateAt] at hkv
    cases hkv
    exact ⟨by rw [List.length_map]; exact hi.le, hstate⟩
  · obtain ⟨e, he, rfl⟩ := List.mem_map.1 hmem
    obtain ⟨k, hk⟩ := List.getElem?_of_mem he
    obtain ⟨i, happ⟩ := h.logged k e hk
    obtain ⟨-, j, hj⟩ := h.quiet.started happ
    exact ⟨j, _, _, hj⟩

/-- In orderly runs all servers of a group replay one log, and later a log that continues it. -/
theorem group_never_forks (h : OrderlyRun gob gid g)
    (hlater : Reach (ReplicaGroup.step (groupHost gob gid)) ReplicaGroup.Orderly g g') :
    ∃ log log', log <+: log' ∧ Replays gid log g ∧ Replays gid log' g' := by
  obtain ⟨log, hagree⟩ := exists_agree (groupHost_implements gob gid) h
  obtain ⟨log', hgrown, hagree'⟩ := hagree.later (groupHost_implements gob gid) hlater
  exact ⟨_, _, hgrown.map _, replays_of_agree hagree, replays_of_agree hagree'⟩

/-- `applier` deals with every message that it receives. -/
theorem group_applier_never_panics (h : OrderlyRun gob gid g) (i : Fin n) (msg : ApplyMsg Command)
    (hpc : (g.replicas i).pc = .received msg) :
    ∃ g', g.step (groupHost gob gid) (.apply i) = some g' := by
  obtain ⟨log, hagree⟩ := exists_agree (groupHost_implements gob gid) h
  have hsome : (applyMsg gob (g.replicas i).state msg).isSome := by
    cases msg with
    | command command index term =>
      obtain ⟨op, _, rfl, -⟩ := hagree.exists_entry hpc
      have hkv := ((replays_of_agree hagree).state i).2
      simp only [applyMsg]
      split
      · rfl
      · next hgt =>
        simp only [Option.bind_eq_bind, Option.bind_some, hkv,
          applier_command hkv index op (not_le.1 hgt)]
        rfl
    | snapshot b term index =>
      simp only [applyMsg, Server.applier, Bool.false_eq_true, if_false, if_true]
      split <;> rfl
  obtain ⟨⟨state, res⟩, happ⟩ := Option.isSome_iff_exists.1 hsome
  have happ' : (groupHost gob gid).applier (g.replicas i).state msg = some (state, res) := happ
  simp only [ReplicaGroup.step, ReplicaGroup.apply, hpc, happ', Option.bind_eq_bind,
    Option.bind_some, Option.pure_def, Option.map_some]
  exact ⟨_, rfl⟩

end

/-! ## A run with a snapshot and a crash -/

/-- The number of a state, for the encoding. -/
def ShardState.ofNumber : Nat → ShardState
  | 0 => .serving
  | 1 => .pulling
  | 2 => .bePulling
  | _ => .gcing

/-- The wire format of shards. -/
def shardWire : Wire Shard :=
  ((Wire.goMap .goString .goString).prod .nat).via (fun s => (s.shardKVDB, s.state.ctorIdx))
    (fun x => ⟨x.1, .ofNumber x.2⟩) fun s => by
      obtain ⟨shardKVDB, state⟩ := s
      cases state <;> rfl

/-- The wire format of configs. -/
def configWire : Wire Config :=
  (Wire.nat.prod ((Wire.int.array NShards).prod (.goMap .int (.list .string)))).via
    (fun c => (c.num, c.shards, c.groups)) (fun x => ⟨x.1, x.2.1, x.2.2⟩) fun _ => rfl

/-- One way to encode. -/
def someGob : Gob := ⟨.goMap (.fin NShards) shardWire, .goMap .int .int, configWire⟩

/-- Server 0 of three wins the vote of server 1, whose request is number `k`. -/
def elected (k : Nat) : List (GroupAction 3 Command) :=
  [.raft (.electionTimeout 0), .raft (.requestVote k), .raft (.requestVoteReply k)]

/-- Server 0 of three starts a command, its goroutine number `k` replicates it, and its applier
gets it. -/
def replicated (k : Nat) (command : Command) : List (GroupAction 3 Command) :=
  [.start 0 command 0, .raft (.replicate 0 k), .raft (.appendEntries 0 0),
    .raft (.appendEntriesReply 0), .raft (.takeBatch 0), .sendCommand 0]

/-- The group adopts a config and executes a `Put`. -/
def served : List (GroupAction 3 Command) :=
  elected 0 ++ replicated 0 (.addConfig ⟨1, fun _ => 1, ∅⟩) ++ [.apply 0, .proceed 0] ++
    replicated 1 (.getPutAppend ⟨[10], [7], .put, 0, 5⟩) ++ [.apply 0]

/-- The leader hands over a snapshot, crashes, is started again from it, wins the next election and
executes another command. -/
def servedAgain : List (GroupAction 3 Command) :=
  [.snapshot 0 0, .restart 0 0] ++ elected 1 ++
    replicated 0 (.getPutAppend ⟨[10], [8], .append, 1, 5⟩) ++ [.apply 0]

/-- Where orderly steps lead to from the state `g`. -/
def after (g : ReplicaGroup 3 Server Command) (run : List (GroupAction 3 Command)) :
    ReplicaGroup 3 Server Command :=
  reached (ReplicaGroup.step (groupHost someGob 1)) ReplicaGroup.Orderly g run

/-- The second write finds the first one, which is in the snapshot. -/
theorem group_never_forks_throughCrash :
    let g := after (.init (groupHost someGob 1)) served
    let g' := after g servedAgain
    (g.replicas 0).applied = 2 ∧ (g'.replicas 0).applied = 3 ∧
      (g'.replicas 0).state.kv?.map (fun kv => (kv.shards 0).get [10]) = some [7, 8] ∧
      ∃ log log', log <+: log' ∧ Replays 1 log g ∧ Replays 1 log' g' :=
  ⟨by decide +kernel, by decide +kernel, by decide +kernel,
    group_never_forks (reach_reached _) (reach_reached _)⟩

/-- The applier has received a config. -/
theorem group_applier_never_panics_config :
    ∃ g', (after (.init (groupHost someGob 1)) (elected 0 ++
    replicated 0 (.addConfig ⟨1, fun _ => 1, ∅⟩))).step (groupHost someGob 1) (.apply 0) =
      some g' :=
  group_applier_never_panics (reach_reached _) 0
    (.command (some (.addConfig ⟨1, fun _ => 1, ∅⟩)) 1 1)
    (by decide +kernel)

end DistLabs.Shardkv
