import DistLabs.Shardctrler.Server

/-!
# The order of the `range` loops

Go visits the entries of a map in any order, and every replica of the controller chooses its own.
The loops of `execute` only copy entries to maps, or sort the keys that they find, so that all
orders lead to the same state and the same answer (`execute_orders`).
-/

namespace DistLabs.Shardctrler

open Lib

/-- All loops visit the keys in increasing order. -/
def Orders.increasing : Orders := ⟨.increasing, .increasing, .increasing, fun _ => .increasing⟩

/-! ## Rebalancing -/

/-- The group ids are sorted before they are visited. -/
theorem findMaxAndMinGid_orders (o o' : RangeOrder Gid) (cnt : Counts) :
    findMaxAndMinGid o cnt = findMaxAndMinGid o' cnt := by
  have hsort : ((cnt.range o).map (·.1)).insertionSort (· ≤ ·) =
      ((cnt.range o').map (·.1)).insertionSort (· ≤ ·) := by
    refine List.Perm.eq_of_pairwise' (List.pairwise_insertionSort _ _)
      (List.pairwise_insertionSort _ _) ?_
    exact (List.perm_insertionSort _ _).trans
      (GoMap.range_perm.trans (List.perm_insertionSort _ _).symm)
  rw [findMaxAndMinGid, findMaxAndMinGid, hsort]

/-- The loop of `adjustShards` does the same in any order. -/
theorem rebalance_orders (o o' : Nat → RangeOrder Gid) (fuel : Nat) (cnt : Counts)
    (newShards : Fin NShards → Gid) :
    rebalance o fuel cnt newShards = rebalance o' fuel cnt newShards := by
  induction fuel generalizing cnt newShards with
  | zero => rfl
  | succ fuel ih =>
    unfold rebalance
    simp only [findMaxAndMinGid_orders (o fuel) (o' fuel), ih]

/-- `adjustShards` does the same in any order. -/
theorem adjustShards_orders (o o' : Orders) (newGroups : GoMap Gid (List String))
    (newShards : Fin NShards → Gid) :
    adjustShards o newGroups newShards = adjustShards o' newGroups newShards := by
  unfold adjustShards
  rw [GoMap.foldl_range_insert o.newGroups o'.newGroups fun _ _ => []]
  simp only [rebalance_orders o.cnt o'.cnt]

/-! ## Operations -/

namespace ShardCtrler

/-- `copyGroups` makes the same map in any order. -/
theorem copyGroups_orders (o o' : RangeOrder Gid) (last : Config) :
    copyGroups o last = copyGroups o' last :=
  GoMap.foldl_range_insert o o' (fun _ v => v) ∅

variable (o o' : Orders) (sc : ShardCtrler)

/-- `processJoin` does the same in any order. -/
theorem processJoin_orders (servers : GoMap Gid (List String)) :
    sc.processJoin o servers = sc.processJoin o' servers := by
  unfold processJoin
  simp only [copyGroups_orders o.copyGroups o'.copyGroups, adjustShards_orders o o',
    GoMap.foldl_range_insert o.servers o'.servers fun _ v => v]

/-- `processLeave` does the same in any order. -/
theorem processLeave_orders (gids : List Gid) :
    sc.processLeave o gids = sc.processLeave o' gids := by
  unfold processLeave
  simp only [copyGroups_orders o.copyGroups o'.copyGroups, adjustShards_orders o o']

/-- `processMove` does the same in any order. -/
theorem processMove_orders (shard : Int) (gid : Gid) :
    sc.processMove o shard gid = sc.processMove o' shard gid := by
  unfold processMove
  simp only [copyGroups_orders o.copyGroups o'.copyGroups]

/-- Replicas that execute the same operation in the same state agree, whatever the order in which
they visit maps. -/
theorem execute_orders (op : Op) : sc.execute o op = sc.execute o' op := by
  unfold execute
  simp only [processJoin_orders o o', processLeave_orders o o', processMove_orders o o']

end ShardCtrler

end DistLabs.Shardctrler
