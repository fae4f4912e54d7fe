import DistLabs.Shardctrler.Server

/-!
# The functions of `shardkv/server.go`

A group is a state machine: `execute` applies one committed command to the replicated part of a
`ShardKV`. The handlers and the monitors read such a state, that of the replica they run on, and
start commands. `kv.shards` has an entry for every shard from `StartServer` on, so it is a
function. A `range` loop over a map here touches every key on its own, so that its order does not
matter and the loop is written pointwise. `DPrintf` is left out, and so is `GetPutAppendArgs.Gid`,
which nothing reads.
-/

namespace DistLabs.Shardkv

open Lib Shardctrler

/-- `ShardState`. -/
inductive ShardState where
  | serving
  | pulling
  | bePulling
  | gcing
  deriving DecidableEq, Repr

/-- `Shard`. -/
structure Shard where
  shardKVDB : GoMap GoString GoString
  state : ShardState
  deriving DecidableEq

/-- The error codes of `common.go`. -/
inductive Err where
  | ok
  | errNoKey
  | errWrongGroup
  | errWrongLeader
  | otherErr
  deriving DecidableEq, Repr

/-- `OpType`. -/
inductive OpType where
  | get
  | put
  | append
  deriving DecidableEq, Repr

/-- `GetPutAppendArgs`. -/
structure GetPutAppendArgs where
  key : GoString
  value : GoString
  opType : OpType
  requestId : Int
  clientId : Int
  deriving DecidableEq

/-- `PullShardArgs`. -/
structure PullShardArgs where
  gid : Gid
  shardIds : List (Fin NShards)
  configNum : Nat

/-- `PullShardReply`. -/
structure PullShardReply where
  err : Err
  configNum : Nat := 0
  shards : GoMap (Fin NShards) Shard := ∅
  lastRequestMap : GoMap Int Int := ∅
  deriving DecidableEq

/-- `RemoveShardArgs`. -/
structure RemoveShardArgs where
  shardIds : List (Fin NShards)
  configNum : Nat
  deriving DecidableEq

/-- `AdjustShardArgs`. -/
structure AdjustShardArgs where
  shardIds : List (Fin NShards)
  configNum : Nat
  deriving DecidableEq

/-- `CommonReply`. -/
structure CommonReply where
  err : Err := .ok
  value : GoString := []
  deriving DecidableEq

/-- `Command`. The type of a client command is that of its data. -/
inductive Command where
  | getPutAppend (op : GetPutAppendArgs)
  | addConfig (config : Config)
  | insertShard (response : PullShardReply)
  | deleteShard (args : RemoveShardArgs)
  | adjustShardState (args : AdjustShardArgs)
  deriving DecidableEq

/-- The fields of `ShardKV` that the commands work on, and the id of the group. -/
structure ShardKV where
  gid : Gid
  currentConfig : Config
  lastConfig : Config
  shards : Fin NShards → Shard
  lastRequestMap : GoMap Int Int
  deriving DecidableEq

/-- `key2shard`. -/
def key2shard (key : GoString) : Fin NShards :=
  ⟨(key.head?.map UInt8.toNat).getD 0 % NShards, Nat.mod_lt _ (by decide)⟩

namespace Shard

/-- `get`. -/
def get (s : Shard) (key : GoString) : GoString := s.shardKVDB[key]?.getD []

/-- `put`. -/
def put (s : Shard) (key value : GoString) : Shard :=
  { s with shardKVDB := s.shardKVDB.insert key value }

/-- `append`. -/
def append (s : Shard) (key value : GoString) : Shard :=
  { s with shardKVDB := s.shardKVDB.insert key (s.get key ++ value) }

/-- `MakeShard`. -/
def make (state : ShardState) : Shard := ⟨∅, state⟩

/-- `CopyShard`. -/
def copyShard (s : Shard) : Shard := ⟨s.shardKVDB, .serving⟩

/-- The body of the loop of `processAddConfig`, for a shard that passes from group `old` to
`new`. -/
def reassign (s : Shard) (gid old new : Gid) : Shard :=
  let s := if new = gid ∧ old ≠ gid then
      if old ≠ 0 then { s with state := .pulling } else s
    else s
  if new ≠ gid ∧ old = gid then
    if new ≠ 0 then { s with state := .bePulling } else s
  else s

/-- The body of the loop of `processInsertShard`. -/
def install (localShard shard : Shard) : Shard :=
  if localShard.state = .pulling then ⟨localShard.shardKVDB ∪ shard.shardKVDB, .gcing⟩
  else localShard

end Shard

namespace ShardKV

/-- `StartServer` without a snapshot. -/
def startServer (gid : Gid) : ShardKV where
  gid
  currentConfig := .zero
  lastConfig := .zero
  shards := fun _ => .make .serving
  lastRequestMap := ∅

/-- `checkShardAndState`. -/
def checkShardAndState (kv : ShardKV) (shardId : Fin NShards) : Prop :=
  kv.currentConfig.shards shardId = kv.gid ∧
    ((kv.shards shardId).state = .serving ∨ (kv.shards shardId).state = .gcing)

instance (kv : ShardKV) (shardId : Fin NShards) : Decidable (kv.checkShardAndState shardId) :=
  inferInstanceAs (Decidable (_ ∧ _))

/-- `isInvalidRequest`. -/
def isInvalidRequest (kv : ShardKV) (clientId requestId : Int) : Prop :=
  ∃ lastRequestId ∈ kv.lastRequestMap[clientId]?, requestId ≤ lastRequestId

instance (kv : ShardKV) (clientId requestId : Int) :
    Decidable (kv.isInvalidRequest clientId requestId) :=
  inferInstanceAs (Decidable (∃ lastRequestId ∈ kv.lastRequestMap[clientId]?,
    requestId ≤ lastRequestId))

/-! ## Commands -/

/-- `UpdateLastRequest`. -/
def updateLastRequest (kv : ShardKV) (op : GetPutAppendArgs) : ShardKV :=
  match kv.lastRequestMap[op.clientId]? with
  | some lastRequestId =>
    if lastRequestId < op.requestId then
      { kv with lastRequestMap := kv.lastRequestMap.insert op.clientId op.requestId }
    else kv
  | none => { kv with lastRequestMap := kv.lastRequestMap.insert op.clientId op.requestId }

/-- Replace one shard. -/
def setShard (kv : ShardKV) (shardId : Fin NShards) (shard : Shard) : ShardKV :=
  { kv with shards := Function.update kv.shards shardId shard }

/-- `processGetPutAppend`. -/
def processGetPutAppend (kv : ShardKV) (op : GetPutAppendArgs) : ShardKV × CommonReply :=
  let shardId := key2shard op.key
  let shard := kv.shards shardId
  if ¬ kv.checkShardAndState shardId then (kv, { err := .errWrongGroup })
  else if op.opType = .get ∨ ¬ kv.isInvalidRequest op.clientId op.requestId then
    match op.opType with
    | .get => (kv.updateLastRequest op, { value := shard.get op.key })
    | .put => ((kv.setShard shardId (shard.put op.key op.value)).updateLastRequest op, {})
    | .append => ((kv.setShard shardId (shard.append op.key op.value)).updateLastRequest op, {})
  else (kv, {})

/-- `processAddConfig`. It does not check that the migration of the current config is over: that is
left to the monitor that starts the command. -/
def processAddConfig (kv : ShardKV) (newConfig : Config) : ShardKV × CommonReply :=
  if newConfig.num = kv.currentConfig.num + 1 then
    ({ kv with
        shards := fun i => (kv.shards i).reassign kv.gid (kv.currentConfig.shards i)
          (newConfig.shards i)
        lastConfig := kv.currentConfig
        currentConfig := newConfig }, {})
  else (kv, { err := .otherErr })

/-- `processInsertShard`. -/
def processInsertShard (kv : ShardKV) (response : PullShardReply) : ShardKV × CommonReply :=
  if response.configNum = kv.currentConfig.num then
    ({ kv with
        shards := fun i =>
          match response.shards[i]? with
          | some shard => (kv.shards i).install shard
          | none => kv.shards i
        lastRequestMap := response.lastRequestMap.toList.foldl
          (fun m e => m.insert e.1 (max e.2 (m[e.1]?.getD 0))) kv.lastRequestMap }, {})
  else (kv, { err := .otherErr })

/-- The reply to a command of another config: a command of an earlier one has done its work. -/
def staleReply (kv : ShardKV) (configNum : Nat) : CommonReply :=
  { err := if configNum < kv.currentConfig.num then .ok else .otherErr }

/-- `processDeleteShard`. -/
def processDeleteShard (kv : ShardKV) (args : RemoveShardArgs) : ShardKV × CommonReply :=
  if args.configNum = kv.currentConfig.num then
    ({ kv with
        shards := fun i =>
          if i ∈ args.shardIds ∧ (kv.shards i).state = .bePulling then .make .serving
          else kv.shards i }, {})
  else (kv, kv.staleReply args.configNum)

/-- `processAdjustGCingShard`. It does not check that the shards are `gcing`. -/
def processAdjustGCingShard (kv : ShardKV) (args : AdjustShardArgs) : ShardKV × CommonReply :=
  if args.configNum = kv.currentConfig.num then
    ({ kv with
        shards := fun i =>
          if i ∈ args.shardIds then { kv.shards i with state := .serving } else kv.shards i }, {})
  else (kv, kv.staleReply args.configNum)

/-- `execute`. -/
def execute (kv : ShardKV) : Command → ShardKV × CommonReply
  | .getPutAppend op => kv.processGetPutAppend op
  | .addConfig config => kv.processAddConfig config
  | .insertShard response => kv.processInsertShard response
  | .deleteShard args => kv.processDeleteShard args
  | .adjustShardState args => kv.processAdjustGCingShard args

/-- What a command does to the replicated state. -/
def apply (kv : ShardKV) (command : Command) : ShardKV := (kv.execute command).1

/-! ## Handlers and monitors -/

/-- The command that the handlers `Get` and `PutAppend` start, unless they answer at once. -/
def clientCommand (kv : ShardKV) (args : GetPutAppendArgs) : Option Command :=
  if ¬ kv.checkShardAndState (key2shard args.key) then none
  else if args.opType ≠ .get ∧ kv.isInvalidRequest args.clientId args.requestId then none
  else some (.getPutAppend args)

/-- `isProcessShardCommand` of `monitorRequestConfig`: some shard is still on its way. -/
def isProcessShardCommand (kv : ShardKV) : Prop := ∃ i, (kv.shards i).state ≠ .serving

instance (kv : ShardKV) : Decidable kv.isProcessShardCommand :=
  inferInstanceAs (Decidable (∃ i, (kv.shards i).state ≠ .serving))

/-- `getShardIdsWithSpecifiedState`: the shards in a state, by the group that owned them before. -/
def getShardIdsWithSpecifiedState (kv : ShardKV) (state : ShardState) :
    GoMap Gid (List (Fin NShards)) :=
  (List.finRange NShards).foldl (fun tmp shardId =>
    if (kv.shards shardId).state = state then
      let gid := kv.lastConfig.shards shardId
      tmp.insert gid (tmp[gid]?.getD [] ++ [shardId])
    else tmp) ∅

/-- The shards that `monitorInsert` and `monitorGC` ask the servers of group `oldGid` about, if
there is anything and anybody to ask. -/
def shardIdsFor (kv : ShardKV) (state : ShardState) (oldGid : Gid) :
    Option (List (Fin NShards)) := do
  let shardIds ← (kv.getShardIdsWithSpecifiedState state)[oldGid]?
  let servers ← kv.lastConfig.groups[oldGid]?
  if servers = [] then none else return shardIds

/-- `GetShards` on a server that takes itself for the leader. -/
def getShards (kv : ShardKV) (args : PullShardArgs) : PullShardReply :=
  if args.configNum = kv.currentConfig.num then
    { err := .ok
      shards := args.shardIds.foldl (fun shards shardId =>
        if (kv.shards shardId).state = .bePulling then
          shards.insert shardId (kv.shards shardId).copyShard
        else shards) ∅
      lastRequestMap := kv.lastRequestMap }
  else { err := .errWrongGroup }

end ShardKV

end DistLabs.Shardkv
