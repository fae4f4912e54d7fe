import DistLabs.Lib.Go
import Mathlib.Algebra.Order.Ring.Int
import Mathlib.Data.List.Sort
import Mathlib.Logic.Function.Basic

/-!
# The functions of `shardctrler/server.go`

The controller is a state machine: `execute` applies one committed operation to the history of
configs. `none` is a run-time panic: an index out of range. The order of every `range` loop over a
map is a parameter (`Orders`). `DPrintf` is left out. The handlers, which only check for old
requests and wait for an operation to be applied, are in `Shardctrler.Query`.
-/

namespace DistLabs.Shardctrler

open Lib

/-- The number of shards. -/
def NShards : Nat := 10

instance : NeZero NShards := ⟨by decide⟩

/-- A group id. Id 0 is the invalid group. -/
abbrev Gid := Int

/-- `Config`: an assignment of shards to groups. -/
structure Config where
  num : Nat
  shards : Fin NShards → Gid
  groups : GoMap Gid (List String)
  deriving DecidableEq

/-- The zero value of `Config`, which is config number 0. -/
def Config.zero : Config := ⟨0, fun _ => 0, ∅⟩

/-- What an operation asks for. -/
inductive Request where
  | join (servers : GoMap Gid (List String))
  | leave (gids : List Gid)
  | move (shard : Int) (gid : Gid)
  | query (num : Int)
  deriving DecidableEq

/-- `Op`. -/
structure Op where
  clientId : Int
  requestId : Int
  request : Request
  deriving DecidableEq

/-- All other operations make a new config. -/
def Op.isQuery (op : Op) : Bool :=
  match op.request with
  | .query _ => true
  | _ => false

/-- The orders of the `range` loops of one `execute`. `findMaxAndMinGid` is called in a loop, so it
has one for every call. -/
structure Orders where
  copyGroups : RangeOrder Gid
  servers : RangeOrder Gid
  newGroups : RangeOrder Gid
  cnt : Nat → RangeOrder Gid

/-- The fields of `ShardCtrler` that `execute` works on. -/
structure ShardCtrler where
  configs : List Config
  lastRequestMap : GoMap Int Int

/-- `StartServer`. -/
def ShardCtrler.init : ShardCtrler := ⟨[.zero], ∅⟩

/-! ## Rebalancing -/

/-- The shards of each group. -/
abbrev Counts := GoMap Gid (List (Fin NShards))

/-- The results of `findMaxAndMinGid`. -/
structure Extremes where
  maxGid : Gid
  mx : Int
  minGid : Gid
  mn : Int

/-- The body of the second loop of `findMaxAndMinGid`. -/
def Extremes.visit (cnt : Counts) (x : Extremes) (gid : Gid) : Extremes :=
  let m : Int := (cnt[gid]?.getD []).length
  let x := if x.maxGid ≠ 0 ∧ ((gid = 0 ∧ m > 0) ∨ gid ≠ 0 ∧ m > x.mx) then
      { x with maxGid := gid, mx := m }
    else x
  if gid ≠ 0 ∧ m < x.mn then { x with minGid := gid, mn := m } else x

/-- `findMaxAndMinGid`. The group with the most shards is group 0 if that has any. -/
def findMaxAndMinGid (o : RangeOrder Gid) (cnt : Counts) : Extremes :=
  let gids := (cnt.range o).map (·.1)
  (gids.insertionSort (· ≤ ·)).foldl (Extremes.visit cnt)
    { maxGid := -1, mx := -2 ^ 63, minGid := -1, mn := 2 ^ 63 - 1 }

/-- The loop of `adjustShards`: move a shard from the largest group to the smallest one until their
sizes differ by at most 1. -/
def rebalance (o : Nat → RangeOrder Gid) :
    (fuel : Nat) → Counts → (newShards : Fin NShards → Gid) → Option (Fin NShards → Gid)
  | 0, _, _ => none
  | fuel + 1, cnt, newShards =>
    let x := findMaxAndMinGid (o fuel) cnt
    if x.maxGid ≠ 0 ∧ x.mx - x.mn ≤ 1 then some newShards
    else
      match cnt[x.maxGid]?.getD [] with
      | [] => none
      | shardId :: rest =>
        let cnt := cnt.insert x.maxGid rest
        let cnt := cnt.insert x.minGid (cnt[x.minGid]?.getD [] ++ [shardId])
        rebalance o fuel cnt (Function.update newShards shardId x.minGid)

/-- `adjustShards`. At most `NShards` moves empty group 0, and every other move makes the sum of
the squares of the sizes smaller, so the fuel is enough. -/
def adjustShards (o : Orders) (newGroups : GoMap Gid (List String))
    (newShards : Fin NShards → Gid) :
    Option (Fin NShards → Gid) :=
  if newGroups.isEmpty then some newShards
  else
    let cnt : Counts := (newGroups.range o.newGroups).foldl (fun cnt e => cnt.insert e.1 []) ∅
    let cnt := (List.finRange NShards).foldl (fun cnt shardId =>
      cnt.insert (newShards shardId) (cnt[newShards shardId]?.getD [] ++ [shardId])) cnt
    rebalance o.cnt (NShards + NShards * NShards) cnt newShards

/-! ## Operations -/

namespace ShardCtrler

/-- `isInvalidRequest`. -/
def isInvalidRequest (sc : ShardCtrler) (clientId requestId : Int) : Prop :=
  ∃ lastRequestId ∈ sc.lastRequestMap[clientId]?, requestId ≤ lastRequestId

instance (sc : ShardCtrler) (clientId requestId : Int) :
    Decidable (sc.isInvalidRequest clientId requestId) :=
  inferInstanceAs (Decidable (∃ lastRequestId ∈ sc.lastRequestMap[clientId]?,
    requestId ≤ lastRequestId))

/-- `UpdateLastRequest`. -/
def updateLastRequest (sc : ShardCtrler) (op : Op) : ShardCtrler :=
  match sc.lastRequestMap[op.clientId]? with
  | some lastRequestId =>
    if lastRequestId < op.requestId then
      { sc with lastRequestMap := sc.lastRequestMap.insert op.clientId op.requestId }
    else sc
  | none => { sc with lastRequestMap := sc.lastRequestMap.insert op.clientId op.requestId }

/-- `copyGroups`, of the latest config `last`. -/
def copyGroups (o : RangeOrder Gid) (last : Config) : GoMap Gid (List String) :=
  (last.groups.range o).foldl (fun newGroups e => newGroups.insert e.1 e.2) ∅

/-- The new config that `processJoin`, `processLeave` and `processMove` append. -/
def addConfig (sc : ShardCtrler) (last : Config) (groups : GoMap Gid (List String))
    (shards : Fin NShards → Gid) : ShardCtrler :=
  { sc with configs := sc.configs ++ [{ num := last.num + 1, shards, groups }] }

/-- `processJoin`. -/
def processJoin (o : Orders) (sc : ShardCtrler) (servers : GoMap Gid (List String)) :
    Option ShardCtrler := do
  let last ← sc.configs.getLast?
  let newGroups := (servers.range o.servers).foldl
    (fun newGroups e => newGroups.insert e.1 e.2) (copyGroups o.copyGroups last)
  let newShards ← adjustShards o newGroups last.shards
  return sc.addConfig last newGroups newShards

/-- The shards of a group that leaves go to group 0. -/
def releaseShards (shards : Fin NShards → Gid) (gid : Gid) : Fin NShards → Gid := fun shardId =>
  let belongGid := shards shardId
  if gid = belongGid then 0 else belongGid

/-- `processLeave`. -/
def processLeave (o : Orders) (sc : ShardCtrler) (gids : List Gid) : Option ShardCtrler := do
  let last ← sc.configs.getLast?
  let newGroups := gids.foldl (fun newGroups gid => newGroups.erase gid)
    (copyGroups o.copyGroups last)
  let newShards ← adjustShards o newGroups (gids.foldl releaseShards last.shards)
  return sc.addConfig last newGroups newShards

/-- `processMove`. -/
def processMove (o : Orders) (sc : ShardCtrler) (shard : Int) (gid : Gid) :
    Option ShardCtrler := do
  let last ← sc.configs.getLast?
  if h : 0 ≤ shard ∧ shard.toNat < NShards then
    return sc.addConfig last (copyGroups o.copyGroups last)
      (Function.update last.shards ⟨shard.toNat, h.2⟩ gid)
  else none

/-- `processQuery`: the value of `op.Configure`. -/
def processQuery (sc : ShardCtrler) (num : Int) : Option Config :=
  if num = -1 ∨ num ≥ sc.configs.length then sc.configs.getLast?
  else if num < 0 then none
  else sc.configs[num.toNat]?

/-- `execute`: the new state and `op.Configure`. -/
def execute (o : Orders) (sc : ShardCtrler) (op : Op) : Option (ShardCtrler × Config) :=
  if sc.isInvalidRequest op.clientId op.requestId then some (sc, .zero)
  else do
    let (sc', configure) ← match op.request with
      | .join servers => (sc.processJoin o servers).map (·, Config.zero)
      | .leave gids => (sc.processLeave o gids).map (·, Config.zero)
      | .move shard gid => (sc.processMove o shard gid).map (·, Config.zero)
      | .query num => (sc.processQuery num).map (sc, ·)
    return (sc'.updateLastRequest op, configure)

end ShardCtrler

end DistLabs.Shardctrler
