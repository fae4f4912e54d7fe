import DistLabs.Shardkv.Handoff
import Mathlib.Algebra.Order.BigOperators.Group.Finset
import Mathlib.Data.Finset.Max

/-!
# Migration comes to an end

Groups wait for each other: to pull a shard the source must be at the same config, and a group asks
for the next config only when all its shards are served. Among the running groups those with the
smallest config number can always go on (`Staffed.progress`): whoever they wait for has their
config or a later one, and a source does not leave a config before its shards were installed
(`Origin.served_outgoing`), nor does a new owner before the source has deleted them
(`Origin.served_incoming`). Every such exchange makes `System.remaining` smaller.

This needs that shards go from groups that the controller lists with their servers to groups that
run. The controller does not see to it: `Move` takes any group id, and a group that is to hand a
shard to a group that does not exist waits for ever (`stranded`).
-/

namespace DistLabs.Shardkv

open Lib Shardctrler

/-! ## Exchanges that succeed -/

section
variable {kv : ShardKV} {state : ShardState} {i : Fin NShards}

/-- `getShardIdsWithSpecifiedState` finds every shard. -/
theorem mem_getShardIdsWithSpecifiedState (hstate : (kv.shards i).state = state) :
    ∃ ids ∈ (kv.getShardIdsWithSpecifiedState state)[kv.lastConfig.shards i]?, i ∈ ids := by
  refine foldl_of_mem (P := fun tmp : GoMap Gid (List (Fin NShards)) =>
    ∃ ids ∈ tmp[kv.lastConfig.shards i]?, i ∈ ids) (List.mem_finRange i) (fun tmp => ?_) ?_ ∅
  · dsimp only
    rw [if_pos hstate, GoMap.getElem?_insert, if_pos rfl]
    exact ⟨_, rfl, List.mem_append_right _ (List.mem_singleton_self i)⟩
  · rintro tmp j - ⟨ids, hids, hi⟩
    dsimp only
    split
    swap
    · exact ⟨ids, hids, hi⟩
    rw [GoMap.getElem?_insert]
    split
    · next heq =>
      refine ⟨_, rfl, List.mem_append_left _ ?_⟩
      rw [← heq, Option.mem_def.1 hids]
      exact hi
    · exact ⟨ids, hids, hi⟩

/-- A shard in a state is among those the monitors ask its last owner about. -/
theorem exists_shardIdsFor (hstate : (kv.shards i).state = state)
    (hservers : ∃ servers ∈ kv.lastConfig.groups[kv.lastConfig.shards i]?, servers ≠ []) :
    ∃ ids, kv.shardIdsFor state (kv.lastConfig.shards i) = some ids ∧ i ∈ ids := by
  obtain ⟨ids, hids, hi⟩ := mem_getShardIdsWithSpecifiedState hstate
  obtain ⟨servers, hservers, hne⟩ := hservers
  refine ⟨ids, ?_, hi⟩
  simp only [ShardKV.shardIdsFor, Option.mem_def.1 hids, Option.mem_def.1 hservers,
    Option.bind_eq_bind, Option.bind_some, if_neg hne]
  rfl

/-- `GetShards` hands out what it is asked for and has. -/
theorem mem_getShards (args : PullShardArgs) (hnum : args.configNum = kv.currentConfig.num)
    (hi : i ∈ args.shardIds) (hstate : (kv.shards i).state = .bePulling) :
    (kv.getShards args).err = .ok ∧ ∃ shard, (kv.getShards args).shards[i]? = some shard := by
  unfold ShardKV.getShards
  rw [if_pos hnum]
  refine ⟨rfl, ?_⟩
  dsimp only
  refine foldl_of_mem (P := fun shards : GoMap (Fin NShards) Shard =>
    ∃ shard, shards[i]? = some shard) hi (fun shards => ?_) ?_ ∅
  · rw [if_pos hstate, GoMap.getElem?_insert, if_pos rfl]
    exact ⟨_, rfl⟩
  · rintro shards j - ⟨shard, hshard⟩
    split
    swap
    · exact ⟨shard, hshard⟩
    rw [GoMap.getElem?_insert]
    split
    · exact ⟨_, rfl⟩
    · exact ⟨shard, hshard⟩

/-- The shards of an `InsertShard` of the current config are no longer pulled. -/
theorem apply_insertShard {response : PullShardReply} {shard : Shard}
    (hnum : response.configNum = kv.currentConfig.num) (hi : response.shards[i]? = some shard)
    (hstate : (kv.shards i).state = .pulling) :
    ((kv.apply (.insertShard response)).shards i).state = .gcing := by
  show ((kv.processInsertShard response).1.shards i).state = .gcing
  rw [ShardKV.processInsertShard, if_pos hnum]
  simp only [hi, Shard.install, hstate, if_true]

/-- The shards that a group adjusts serve. -/
theorem apply_adjustShardState {args : AdjustShardArgs}
    (hnum : args.configNum = kv.currentConfig.num) (hi : i ∈ args.shardIds) :
    ((kv.apply (.adjustShardState args)).shards i).state = .serving := by
  show ((kv.processAdjustGCingShard args).1.shards i).state = .serving
  rw [ShardKV.processAdjustGCingShard, if_pos hnum]
  simp only [hi, if_true]

/-- A `DeleteShard` is answered with `OK` by groups that have reached its config. -/
theorem deleteShard_ok {args : RemoveShardArgs} :
    (kv.execute (.deleteShard args)).2.err = .ok ↔ args.configNum ≤ kv.currentConfig.num := by
  show (kv.processDeleteShard args).2.err = .ok ↔ _
  unfold ShardKV.processDeleteShard
  split
  · next hnum => simp [hnum]
  · next hnum =>
    simp only [ShardKV.staleReply]
    split
    · simp
      omega
    · simp
      omega

/-- After a `DeleteShard` of the current config its shards are not kept for pulling. -/
theorem apply_deleteShard {args : RemoveShardArgs}
    (hnum : args.configNum = kv.currentConfig.num) (hi : i ∈ args.shardIds) :
    ((kv.apply (.deleteShard args)).shards i).state ≠ .bePulling := by
  show ((kv.processDeleteShard args).1.shards i).state ≠ .bePulling
  rw [ShardKV.processDeleteShard, if_pos hnum]
  dsimp only
  split
  · exact fun h => by cases h
  · next hno => exact fun h => hno ⟨hi, h⟩

end

/-! ## Nobody is left behind -/

section
variable {sys : System} {g : Gid} {k r n : Nat} {i : Fin NShards}

/-- A group that is past a config served all its shards under it in the end. -/
theorem Origin.served_before (h : Origin sys) (hn : n < (sys.server g k).currentConfig.num) :
    ∃ r, (sys.server g r).currentConfig.num = n ∧
      ∀ i, ((sys.server g r).shards i).state = .serving := by
  obtain ⟨r, newConfig, hr, hnum, hnum'⟩ := exists_adopts sys g k n.succ_pos hn
  exact ⟨r, by omega, serving_of_idle (h.idle_of_addConfig hr (by omega))⟩

/-- A group that has come to a config has served a shard at it, if it serves the shard in case it
is still there. -/
theorem Origin.exists_served (h : Origin sys) (hle : n ≤ (sys.state g).currentConfig.num)
    (hserving : (sys.state g).currentConfig.num = n → ((sys.state g).shards i).state = .serving) :
    ∃ r, (sys.server g r).currentConfig.num = n ∧
      ((sys.server g r).shards i).state = .serving := by
  rcases Nat.lt_or_eq_of_le hle with hlt | heq
  · obtain ⟨r, hr, hserved⟩ := h.served_before hlt
    exact ⟨r, hr, hserved i⟩
  · exact ⟨(sys.groups g).log.length, heq.symm, hserving heq.symm⟩

/-- The shards of an `AdjustShardState` belong to the group, and the group that owned them before
has answered the same `DeleteShard` with `OK`. -/
theorem Origin.adjust_source (h : Origin sys) {args : AdjustShardArgs}
    (hs : sys.Starts g (.adjustShardState args)) (hmem : i ∈ args.shardIds)
    (hn : args.configNum = (sys.server g r).currentConfig.num) :
    (sys.server g r).currentConfig.shards i = g ∧ (sys.server g r).lastConfig.shards i ≠ g ∧
      ∃ j deletion, i ∈ RemoveShardArgs.shardIds deletion ∧ deletion.configNum = args.configNum ∧
        (sys.groups ((sys.server g r).lastConfig.shards i)).log[j]? =
          some (.deleteShard deletion) ∧
        args.configNum ≤
          (sys.server ((sys.server g r).lastConfig.shards i) j).currentConfig.num := by
  cases hs with
  | client hc => cases clientCommand_eq hc
  | @adjust _ oldGid k j ids hids hlog hok =>
    obtain ⟨hgcing, hold⟩ := shardIdsFor_spec hids i hmem
    obtain ⟨hcur, hne, -⟩ := (h.matches g k).incoming i (.inr hgcing)
    obtain ⟨heq, heq'⟩ := (h.matches g k).eq_of_num (h.matches g r) hn
    rw [heq] at hcur
    rw [heq'] at hne hold
    rw [hold]
    exact ⟨hcur, hold ▸ hne, j, _, hmem, rfl, hlog, deleteShard_ok.1 hok⟩

/-- A shard that a group gave away is served, that is, deleted only after its new owner has
installed it. -/
theorem Origin.served_outgoing (h : Origin sys)
    (hi : ((sys.server g r).shards i).state = .serving)
    (hlast : (sys.server g r).lastConfig.shards i = g)
    (hcur : (sys.server g r).currentConfig.shards i ≠ g)
    (hcur₀ : (sys.server g r).currentConfig.shards i ≠ 0) :
    ∃ q shard, sys.Installs ((sys.server g r).currentConfig.shards i)
      (sys.server g r).currentConfig.num i q shard := by
  revert hi hlast hcur hcur₀
  refine server_induction (P := fun kv => (kv.shards i).state = .serving →
    kv.lastConfig.shards i = g → kv.currentConfig.shards i ≠ g → kv.currentConfig.shards i ≠ 0 →
    ∃ q shard, sys.Installs (kv.currentConfig.shards i) kv.currentConfig.num i q shard) sys g
    (fun _ hlast hcur => absurd hlast hcur) ?_ r
  intro q command hq ih hi hlast hcur hcur₀
  have hgid := server_gid sys g q
  have happ := applied_server hq
  have hs := h.log g _ (List.mem_of_getElem? hq)
  generalize sys.server g (q + 1) = kv' at happ hi hlast hcur hcur₀ ⊢
  cases happ with
  | config _ _ hconfig hlast' hshards =>
    rw [hlast'] at hlast
    rw [hconfig] at hcur hcur₀
    rw [hshards, hgid, hlast, reassign_of_bePulling hcur hcur₀] at hi
    cases hi
  | shards _ hconfig hlast' hshards =>
    rw [hconfig] at hcur hcur₀ ⊢
    rw [hlast'] at hlast
    have hstep := hshards i
    generalize kv'.shards i = shard' at hstep hi
    cases hstep with
    | same => exact ih hi hlast hcur hcur₀
    | written _ _ hstate => exact ih (hstate.symm.trans hi) hlast hcur hcur₀
    | inserted => cases hi
    | deleted hnum hmem hstate =>
      obtain ⟨q', shard, hins, -⟩ := h.delete_source hs hmem hnum hstate
      exact ⟨q', shard, hnum ▸ hins⟩
    | adjusted hnum hmem => exact absurd (h.adjust_source hs hmem hnum).1 hcur

/-- A shard that a group has got from another one is served only after that one has deleted it. -/
theorem Origin.served_incoming (h : Origin sys)
    (hi : ((sys.server g r).shards i).state = .serving)
    (hcur : (sys.server g r).currentConfig.shards i = g)
    (hlast : (sys.server g r).lastConfig.shards i ≠ g)
    (hlast₀ : (sys.server g r).lastConfig.shards i ≠ 0) :
    ∃ j deletion, i ∈ RemoveShardArgs.shardIds deletion ∧
      deletion.configNum = (sys.server g r).currentConfig.num ∧
      (sys.groups ((sys.server g r).lastConfig.shards i)).log[j]? = some (.deleteShard deletion) ∧
      (sys.server g r).currentConfig.num ≤
        (sys.server ((sys.server g r).lastConfig.shards i) j).currentConfig.num := by
  revert hi hcur hlast hlast₀
  refine server_induction (P := fun kv => (kv.shards i).state = .serving →
    kv.currentConfig.shards i = g → kv.lastConfig.shards i ≠ g → kv.lastConfig.shards i ≠ 0 →
    ∃ j deletion, i ∈ RemoveShardArgs.shardIds deletion ∧
      deletion.configNum = kv.currentConfig.num ∧
      (sys.groups (kv.lastConfig.shards i)).log[j]? = some (.deleteShard deletion) ∧
      kv.currentConfig.num ≤ (sys.server (kv.lastConfig.shards i) j).currentConfig.num) sys g
    (fun _ _ _ hlast₀ => absurd rfl hlast₀) ?_ r
  intro q command hq ih hi hcur hlast hlast₀
  have hgid := server_gid sys g q
  have happ := applied_server hq
  have hs := h.log g _ (List.mem_of_getElem? hq)
  have hm := h.matches g q
  generalize sys.server g (q + 1) = kv' at happ hi hlast hcur hlast₀ ⊢
  cases happ with
  | config _ _ hconfig hlast' hshards =>
    rw [hlast'] at hlast hlast₀
    rw [hconfig] at hcur
    rw [hshards, hgid, hcur, reassign_of_pulling hlast hlast₀] at hi
    cases hi
  | shards _ hconfig hlast' hshards =>
    rw [hconfig] at hcur ⊢
    rw [hlast'] at hlast hlast₀ ⊢
    have hstep := hshards i
    generalize kv'.shards i = shard' at hstep hi
    cases hstep with
    | same => exact ih hi hcur hlast hlast₀
    | written _ _ hstate => exact ih (hstate.symm.trans hi) hcur hlast hlast₀
    | inserted => cases hi
    | deleted _ _ hstate => exact absurd (hm.outgoing i hstate).1 hlast
    | adjusted hnum hmem =>
      obtain ⟨-, -, hdel⟩ := h.adjust_source hs hmem hnum
      rw [hnum] at hdel
      exact hdel

/-- So the group that had the shard before does not keep it for pulling any more. -/
theorem Origin.source_deleted (h : Origin sys)
    (hi : ((sys.server g r).shards i).state = .serving)
    (hcur : (sys.server g r).currentConfig.shards i = g)
    (hlast : (sys.server g r).lastConfig.shards i ≠ g)
    (hlast₀ : (sys.server g r).lastConfig.shards i ≠ 0)
    (hn : (sys.state ((sys.server g r).lastConfig.shards i)).currentConfig.num =
      (sys.server g r).currentConfig.num) :
    ((sys.state ((sys.server g r).lastConfig.shards i)).shards i).state ≠ .bePulling := by
  obtain ⟨j, deletion, hmem, hnum, hlog, hle⟩ := h.served_incoming hi hcur hlast hlast₀
  generalize (sys.server g r).lastConfig.shards i = g₁ at *
  have hj : j + 1 ≤ (sys.groups g₁).log.length := (List.getElem?_eq_some_iff.1 hlog).1
  have hle' : (sys.server g₁ j).currentConfig.num ≤ (sys.state g₁).currentConfig.num :=
    server_num_le (by omega)
  have hle'' : (sys.server g₁ (j + 1)).currentConfig.num ≤ (sys.state g₁).currentConfig.num :=
    server_num_le hj
  have hle₃ : (sys.server g₁ j).currentConfig.num ≤ (sys.server g₁ (j + 1)).currentConfig.num :=
    server_num_le j.le_succ
  have hdel : ((sys.server g₁ (j + 1)).shards i).state ≠ .bePulling := by
    rw [server_succ hlog]
    exact apply_deleteShard (by omega) hmem
  intro hstate
  have hlater : Later (sys.server g₁ (j + 1)) (sys.state g₁) := later_server hj
  have hev := hlater.evolves (by omega) i
  rw [hstate] at hev
  exact hdel hev.of_bePulling

end

/-! ## Running groups on their own -/

/-- The steps of running groups by themselves: monitors, exchanges between running groups, and the
commands they start. -/
def Undisturbed (running : Finset Gid) (_ : System) : Action → Prop
  | .requestConfig g _ | .commit g _ => g ∈ running
  | .insert g _ oldGid _ | .delete g _ oldGid | .adjust g _ oldGid _ =>
    g ∈ running ∧ oldGid ∈ running
  | .ctrler .. | .client .. => False

/-- Every running group is at the latest config and serves all its shards. -/
def Settled (running : Finset Gid) (sys : System) : Prop :=
  ∀ g ∈ running, sys.ctrler.configs.getLast? = some (sys.state g).currentConfig ∧
    ∀ i, ((sys.state g).shards i).state = .serving

/-- Shards that a new config takes from one group and gives to another one come from a group that
the last config lists with its servers and go to a running group, and if there is a running group
0, no shard is taken from it or given to it. -/
def Transferable (running : Finset Gid) (last config : Config) : Prop :=
  ∀ i, last.shards i ≠ config.shards i →
    (0 ∈ running → last.shards i ≠ 0 ∧ config.shards i ≠ 0) ∧
    (last.shards i ≠ 0 → config.shards i ≠ 0 →
      config.shards i ∈ running ∧ ∃ servers ∈ last.groups[last.shards i]?, servers ≠ [])

instance (running : Finset Gid) (last config : Config) :
    Decidable (Transferable running last config) :=
  inferInstanceAs (Decidable (∀ _, _))

/-- Every config that the controller adds can be carried out by the running groups. -/
def OnlyTransferable (running : Finset Gid) (sys : System) : Action → Prop
  | .ctrler o op => ∀ p ∈ sys.ctrler.execute o op, ∀ last ∈ sys.ctrler.configs.getLast?,
      ∀ config ∈ p.1.configs.getLast?, Transferable running last config
  | _ => True

instance (running : Finset Gid) (sys : System) : (a : Action) →
    Decidable (OnlyTransferable running sys a)
  | .ctrler o op => inferInstanceAs (Decidable (∀ p ∈ sys.ctrler.execute o op,
      ∀ last ∈ sys.ctrler.configs.getLast?, ∀ config ∈ p.1.configs.getLast?,
        Transferable running last config))
  | .client .. | .requestConfig .. | .insert .. | .delete .. | .adjust .. | .commit .. =>
    isTrue trivial

/-- What `Staffed.progress` needs of a state. -/
structure Staffed (running : Finset Gid) (sys : System) : Prop where
  origin : Origin sys
  listed : ∀ config ∈ sys.ctrler.configs, ∀ gid ∈ config.groups, gid ∈ running
  transferable : ∀ (n : Nat) (last config : Config), sys.ctrler.configs[n]? = some last →
    sys.ctrler.configs[n + 1]? = some config → Transferable running last config

section
variable {running : Finset Gid} {sys sys' : System} {g : Gid} {i : Fin NShards} {command : Command}

/-- One more config keeps what holds of all pairs of successive configs. -/
theorem Staffed.step {a : Action} (h : Staffed running sys) (hok : OnlyTransferable running sys a)
    (hst : sys.step a = some sys')
    (hlisted : ∀ config ∈ sys'.ctrler.configs, ∀ gid ∈ config.groups, gid ∈ running) :
    Staffed running sys' := by
  refine ⟨h.origin.step hst, hlisted, ?_⟩
  rcases System.step_cases hst with ⟨o, op, p, rfl, hp, rfl⟩ | ⟨g, command, -, -, rfl⟩ |
    ⟨g, j, command, -, -, rfl⟩
  · rcases execute_configs hp with heq | ⟨last', config', hlast', -, heq⟩
    · rw [heq]
      exact h.transferable
    rw [heq]
    intro n last config hlast hconfig
    have hnew : Transferable running last' config' :=
      hok p hp last' hlast' config' (by rw [heq, List.getLast?_concat]; rfl)
    have hlen : n + 1 < (sys.ctrler.configs ++ [config']).length :=
      (List.getElem?_eq_some_iff.1 hconfig).1
    rw [List.length_append, List.length_singleton] at hlen
    rw [List.getElem?_append_left (by omega)] at hlast
    rcases of_getElem?_concat hconfig with hconfig | ⟨heq', rfl⟩
    · exact h.transferable n last config hlast hconfig
    · rw [List.getLast?_eq_getElem?, ← heq', Nat.add_sub_cancel, hlast] at hlast'
      cases hlast'
      exact hnew
  · exact h.transferable
  · exact h.transferable

/-- The two configs that a replica knows. -/
theorem Staffed.transfer (h : Staffed running sys) {k : Nat}
    (hne : (sys.server g k).lastConfig.shards i ≠ (sys.server g k).currentConfig.shards i) :
    Transferable running (sys.server g k).lastConfig (sys.server g k).currentConfig := by
  have hm := h.origin.matches g k
  refine h.transferable _ _ _ hm.last ?_
  rw [Nat.sub_add_cancel]
  · exact hm.current
  by_contra hpos
  have hlast := hm.last
  rw [show (sys.server g k).currentConfig.num - 1 = (sys.server g k).currentConfig.num by omega,
    hm.current] at hlast
  rw [Option.some.inj hlast] at hne
  exact hne rfl

/-- A running group gets shards from running groups, and it can ask them. -/
theorem Staffed.incoming (h : Staffed running sys) (hg : g ∈ running) {k : Nat}
    (hi : ((sys.server g k).shards i).state = .pulling ∨
      ((sys.server g k).shards i).state = .gcing) :
    g ≠ 0 ∧ (sys.server g k).lastConfig.shards i ∈ running ∧
      ∃ servers ∈ (sys.server g k).lastConfig.groups[(sys.server g k).lastConfig.shards i]?,
        servers ≠ [] := by
  have hm := h.origin.matches g k
  obtain ⟨hcur, hlast, hlast₀⟩ := hm.incoming i hi
  have hne : (sys.server g k).lastConfig.shards i ≠ (sys.server g k).currentConfig.shards i := by
    rw [hcur]
    exact hlast
  obtain ⟨hzero, htransfer⟩ := h.transfer hne i hne
  rw [hcur] at hzero htransfer
  have hg₀ : g ≠ 0 := by
    rintro rfl
    exact (hzero hg).2 rfl
  obtain ⟨-, servers, hservers, hne'⟩ := htransfer hlast₀ hg₀
  refine ⟨hg₀, h.listed _ (List.mem_of_getElem? hm.last) _ ?_, servers, hservers, hne'⟩
  rw [Std.ExtTreeMap.mem_iff_isSome_getElem?, Option.mem_def.1 hservers]
  rfl

/-- A running group gives shards to running groups. -/
theorem Staffed.outgoing (h : Staffed running sys) (hg : g ∈ running) {k : Nat}
    (hi : ((sys.server g k).shards i).state = .bePulling) :
    g ≠ 0 ∧ (sys.server g k).currentConfig.shards i ∈ running := by
  obtain ⟨hlast, hcur, hcur₀⟩ := (h.origin.matches g k).outgoing i hi
  have hne : (sys.server g k).lastConfig.shards i ≠ (sys.server g k).currentConfig.shards i := by
    rw [hlast]
    exact hcur.symm
  obtain ⟨hzero, htransfer⟩ := h.transfer hne i hne
  rw [hlast] at hzero htransfer
  have hg₀ : g ≠ 0 := by
    rintro rfl
    exact (hzero hg).1 rfl
  exact ⟨hg₀, (htransfer hg₀ hcur₀).1⟩

/-! ## Steps of running groups -/

/-- A server of group `g` starts a command, which is committed next. -/
def System.perform (sys : System) (g : Gid) (command : Command) : System :=
  (sys.start g command).committed g (sys.groups g).started.length command

theorem perform_state_self : (sys.perform g command).state g = (sys.state g).apply command := by
  rw [System.perform, System.committed_state_self, System.start_state]

theorem perform_state_of_ne {g' : Gid} (hne : g' ≠ g) :
    (sys.perform g command).state g' = sys.state g' := by
  rw [System.perform, System.committed_state_of_ne hne, System.start_state]

/-- A command that is performed is in the log. -/
theorem perform_log :
    ((sys.perform g command).groups g).log = (sys.groups g).log ++ [command] := by
  rw [System.perform, System.committed_groups_self, System.start_log]

/-- A command that can be started can be performed. -/
theorem reach_perform {a : Action} (ha : Undisturbed running sys a) (hg : g ∈ running)
    (hst : sys.step a = some (sys.start g command)) :
    Reach System.step (Undisturbed running) sys (sys.perform g command) := by
  have hstarted : ((sys.start g command).groups g).started[(sys.groups g).started.length]? =
      some command := by
    simp only [System.start, System.setGroup, Function.update_self]
    exact List.getElem?_concat_length
  have hcommit : (sys.start g command).step (.commit g (sys.groups g).started.length) =
      some (sys.perform g command) := by
    simp only [System.step, hstarted, Option.bind_eq_bind, Option.bind_some]
    rfl
  exact (Reach.init.step ha hst).step (e := .commit g _) hg hcommit

/-- How many commands a shard needs at most before it is served. -/
def ShardState.left : ShardState → Nat
  | .serving => 0
  | .bePulling => 1
  | .gcing => 1
  | .pulling => 2

/-- A shard that goes on has no more to do than before. -/
theorem ShardState.Evolves.left_le {a b : ShardState} (h : a.Evolves b) : b.left ≤ a.left := by
  rcases h with rfl | rfl | ⟨rfl, rfl⟩
  · exact le_rfl
  · exact Nat.zero_le _
  · decide

/-- What a group has to do until it serves all shards under config `latest`. -/
def ShardKV.remaining (latest : Nat) (kv : ShardKV) : Nat :=
  (2 * NShards + 1) * (latest - kv.currentConfig.num) + ∑ i, (kv.shards i).state.left

/-- A group has no more to do than before, at the same config. -/
theorem remaining_le {latest : Nat} {kv kv' : ShardKV} (h : Later kv kv')
    (hnum : kv'.currentConfig.num = kv.currentConfig.num) :
    kv'.remaining latest ≤ kv.remaining latest := by
  rw [ShardKV.remaining, ShardKV.remaining, hnum]
  exact Nat.add_le_add_left (Finset.sum_le_sum fun i _ => (h.evolves hnum i).left_le) _

/-- A group has less to do when one of its shards goes on. -/
theorem remaining_lt {latest : Nat} {kv kv' : ShardKV} (h : Later kv kv')
    (hnum : kv'.currentConfig.num = kv.currentConfig.num)
    (hi : (kv'.shards i).state.left < (kv.shards i).state.left) :
    kv'.remaining latest < kv.remaining latest := by
  rw [ShardKV.remaining, ShardKV.remaining, hnum]
  exact Nat.add_lt_add_left (Finset.sum_lt_sum (fun i _ => (h.evolves hnum i).left_le)
    ⟨i, Finset.mem_univ i, hi⟩) _

/-- A new config leaves less to do than the way to it. -/
theorem remaining_lt_of_num {latest : Nat} {kv kv' : ShardKV}
    (hnum : kv'.currentConfig.num = kv.currentConfig.num + 1)
    (hlt : kv.currentConfig.num < latest) : kv'.remaining latest < kv.remaining latest := by
  have hsum : ∑ i, (kv'.shards i).state.left ≤ NShards * 2 := by
    have hle := Finset.sum_le_card_nsmul Finset.univ (fun i => (kv'.shards i).state.left) 2
      fun i _ => by cases (kv'.shards i).state <;> decide
    simpa using hle
  have hsplit : latest - kv.currentConfig.num = latest - kv'.currentConfig.num + 1 := by omega
  rw [ShardKV.remaining, ShardKV.remaining, hsplit, Nat.mul_succ]
  omega

/-- What all running groups have to do. -/
def System.remaining (running : Finset Gid) (sys : System) : Nat :=
  ∑ g ∈ running, (sys.state g).remaining sys.ctrler.configs.length

/-- A command that does not leave its group more to do leaves no group more to do. -/
theorem perform_state_remaining
    (h : ((sys.state g).apply command).remaining sys.ctrler.configs.length ≤
      (sys.state g).remaining sys.ctrler.configs.length) (g' : Gid) :
    ((sys.perform g command).state g').remaining sys.ctrler.configs.length ≤
      (sys.state g').remaining sys.ctrler.configs.length := by
  by_cases hg : g' = g
  · subst hg
    rw [perform_state_self]
    exact h
  · rw [perform_state_of_ne hg]

/-- The system has no more to do than before. -/
theorem perform_remaining_le
    (h : ((sys.state g).apply command).remaining sys.ctrler.configs.length ≤
      (sys.state g).remaining sys.ctrler.configs.length) :
    (sys.perform g command).remaining running ≤ sys.remaining running :=
  Finset.sum_le_sum fun g' _ => perform_state_remaining h g'

/-- The system has less to do when one of its groups has. -/
theorem perform_remaining_lt (hg : g ∈ running)
    (h : ((sys.state g).apply command).remaining sys.ctrler.configs.length <
      (sys.state g).remaining sys.ctrler.configs.length) :
    (sys.perform g command).remaining running < sys.remaining running := by
  refine Finset.sum_lt_sum (fun g' _ => perform_state_remaining h.le g') ⟨g, hg, ?_⟩
  show ((sys.perform g command).state g).remaining sys.ctrler.configs.length < _
  rw [perform_state_self]
  exact h

/-! ## Exchanges -/

/-- Only `addConfig` changes the config. -/
theorem apply_num {kv : ShardKV} (hno : ∀ config, command ≠ .addConfig config) :
    (kv.apply command).currentConfig.num = kv.currentConfig.num := by
  cases applied kv command with
  | config => exact absurd rfl (hno _)
  | shards _ hconfig => rw [hconfig]

section
variable {oldGid : Gid} {k k' j : Nat} {ids : List (Fin NShards)}

/-- When the next config can be started. -/
theorem step_requestConfig {newConfig : Config} (hidle : ¬ (sys.server g k).isProcessShardCommand)
    (hquery : sys.ctrler.processQuery ((sys.server g k).currentConfig.num + 1) = some newConfig)
    (hnum : newConfig.num = (sys.server g k).currentConfig.num + 1) :
    sys.step (.requestConfig g k) = some (sys.start g (.addConfig newConfig)) := by
  simp only [System.step, if_neg hidle]
  rw [hquery]
  exact if_pos hnum

/-- When shards can be inserted. -/
theorem step_insert {reply : PullShardReply}
    (hids : (sys.server g k).shardIdsFor .pulling oldGid = some ids)
    (hreply : (sys.server oldGid k').getShards
      ⟨oldGid, ids, (sys.server g k).currentConfig.num⟩ = reply) (hok : reply.err = .ok) :
    sys.step (.insert g k oldGid k') = some (sys.start g
      (.insertShard { reply with configNum := (sys.server g k).currentConfig.num })) := by
  simp only [System.step, hids, Option.bind_eq_bind, Option.bind_some, hreply]
  exact if_pos hok

/-- When shards can be deleted. -/
theorem step_delete (hids : (sys.server g k).shardIdsFor .gcing oldGid = some ids) :
    sys.step (.delete g k oldGid) =
      some (sys.start oldGid (.deleteShard ⟨ids, (sys.server g k).currentConfig.num⟩)) := by
  simp only [System.step, hids, Option.bind_eq_bind, Option.bind_some]
  rfl

/-- When shards can be adjusted. -/
theorem step_adjust (hids : (sys.server g k).shardIdsFor .gcing oldGid = some ids)
    (hlog : (sys.groups oldGid).log[j]? =
      some (.deleteShard ⟨ids, (sys.server g k).currentConfig.num⟩))
    (hle : (sys.server g k).currentConfig.num ≤ (sys.server oldGid j).currentConfig.num) :
    sys.step (.adjust g k oldGid j) =
      some (sys.start g (.adjustShardState ⟨ids, (sys.server g k).currentConfig.num⟩)) := by
  simp only [System.step, hids, Option.bind_eq_bind, Option.bind_some]
  exact if_pos ⟨hlog, deleteShard_ok.2 hle⟩

end

/-- `monitorInsert` gets a shard that the source keeps for pulling. -/
theorem Staffed.pull (h : Staffed running sys) (hg : g ∈ running)
    (hi : ((sys.state g).shards i).state = .pulling)
    (hnum : (sys.state ((sys.state g).lastConfig.shards i)).currentConfig.num =
      (sys.state g).currentConfig.num)
    (hsource : ((sys.state ((sys.state g).lastConfig.shards i)).shards i).state = .bePulling) :
    ∃ sys', Reach System.step (Undisturbed running) sys sys' ∧
      sys'.remaining running < sys.remaining running := by
  obtain ⟨-, hrun, hservers⟩ := h.incoming hg (.inl hi)
  obtain ⟨ids, hids, hmem⟩ := exists_shardIdsFor hi hservers
  obtain ⟨hok, shard, hshard⟩ := mem_getShards
    ⟨(sys.state g).lastConfig.shards i, ids, (sys.state g).currentConfig.num⟩ hnum.symm
      hmem hsource
  have hstep := step_insert hids rfl hok
  refine ⟨_, reach_perform (a := .insert g _ _ _) ⟨hg, hrun⟩ hg hstep, perform_remaining_lt hg ?_⟩
  refine remaining_lt (i := i) (later_apply _ _) (apply_num fun _ h => by cases h) ?_
  rw [apply_insertShard rfl (by exact hshard) hi, hi]
  decide

/-- `monitorGC` makes the source delete a shard, and then serves it. -/
theorem Staffed.collect (h : Staffed running sys) (hg : g ∈ running)
    (hi : ((sys.state g).shards i).state = .gcing)
    (hnum : (sys.state g).currentConfig.num ≤
      (sys.state ((sys.state g).lastConfig.shards i)).currentConfig.num) :
    ∃ sys', Reach System.step (Undisturbed running) sys sys' ∧
      sys'.remaining running < sys.remaining running := by
  obtain ⟨-, hrun, hservers⟩ := h.incoming hg (.inr hi)
  obtain ⟨ids, hids, hmem⟩ := exists_shardIdsFor hi hservers
  have hne : g ≠ (sys.state g).lastConfig.shards i :=
    ((h.origin.matches g _).incoming i (.inr hi)).2.1.symm
  generalize hg₁ : (sys.state g).lastConfig.shards i = g₁ at *
  have hrun : g₁ ∈ running := hg₁ ▸ hrun
  have hdelete := reach_perform (a := .delete g _ _) ⟨hg, hrun⟩ hrun (step_delete hids)
  generalize hsys₁ : sys.perform g₁ _ = sys₁ at hdelete
  have hlog : (sys₁.groups g₁).log[(sys.groups g₁).log.length]? =
      some (.deleteShard ⟨ids, (sys.state g).currentConfig.num⟩) := by
    rw [← hsys₁, perform_log]
    exact List.getElem?_concat_length
  have hstate : sys₁.state g = sys.state g := by
    rw [← hsys₁, perform_state_of_ne hne]
  have hserver : sys₁.server g (sys.groups g).log.length = sys.state g :=
    (grows_reach hdelete).server le_rfl
  have hserver₁ : sys₁.server g₁ (sys.groups g₁).log.length = sys.state g₁ :=
    (grows_reach hdelete).server le_rfl
  have hle : sys₁.remaining running ≤ sys.remaining running := by
    rw [← hsys₁]
    exact perform_remaining_le (remaining_le (later_apply _ _) (apply_num fun _ h => by cases h))
  rw [← hserver] at hids hlog hnum
  rw [← hserver₁] at hnum
  have hadjust := reach_perform (a := .adjust g _ _ _) ⟨hg, hrun⟩ hg (step_adjust hids hlog hnum)
  refine ⟨_, hdelete.trans hadjust, lt_of_lt_of_le (perform_remaining_lt hg ?_) hle⟩
  refine remaining_lt (i := i) (later_apply _ _) (apply_num fun _ h => by cases h) ?_
  rw [apply_adjustShardState (by rw [hserver, hstate]) hmem, hstate, hi]
  decide

/-- `monitorRequestConfig` finds the next config. -/
theorem Staffed.advance (h : Staffed running sys) (hg : g ∈ running)
    (hidle : ∀ i, ((sys.state g).shards i).state = .serving)
    (hlt : (sys.state g).currentConfig.num + 1 < sys.ctrler.configs.length) :
    ∃ sys', Reach System.step (Undisturbed running) sys sys' ∧
      sys'.remaining running < sys.remaining running := by
  obtain ⟨newConfig, hnew⟩ : ∃ newConfig,
      sys.ctrler.configs[(sys.state g).currentConfig.num + 1]? = some newConfig :=
    ⟨_, List.getElem?_eq_getElem hlt⟩
  have hnum := h.origin.history.num _ _ hnew
  have hstep := step_requestConfig (fun ⟨i, hi⟩ => hi (hidle i))
    (by exact_mod_cast processQuery_of_getElem? hnew) hnum
  refine ⟨_, reach_perform (a := .requestConfig g _) hg hg hstep, perform_remaining_lt hg ?_⟩
  refine remaining_lt_of_num ?_ (by omega)
  show ((sys.state g).processAddConfig newConfig).1.currentConfig.num = _
  rw [ShardKV.processAddConfig, if_pos hnum]
  exact hnum

/-! ## The groups with the smallest config number -/

/-- A source that has reached the config of a shard that is being pulled still keeps it. Otherwise
it has deleted the shard, and the puller has installed it. -/
theorem Staffed.source_ready (h : Staffed running sys) (hg : g ∈ running)
    (hi : ((sys.state g).shards i).state = .pulling)
    (hle : (sys.state g).currentConfig.num ≤
      (sys.state ((sys.state g).lastConfig.shards i)).currentConfig.num) :
    (sys.state ((sys.state g).lastConfig.shards i)).currentConfig.num =
        (sys.state g).currentConfig.num ∧
      ((sys.state ((sys.state g).lastConfig.shards i)).shards i).state = .bePulling := by
  have ho := h.origin
  have hm : Matches sys g (sys.state g) := ho.matches g _
  obtain ⟨hg₀, -⟩ := h.incoming hg (.inl hi)
  obtain ⟨hcur, hne, -⟩ := hm.incoming i (.inl hi)
  generalize hg₁ : (sys.state g).lastConfig.shards i = g₁ at *
  have hm₁ : Matches sys g₁ (sys.state g₁) := ho.matches g₁ _
  by_contra hno
  obtain ⟨r, hr, hserved⟩ := ho.exists_served (i := i) hle fun hnum => by
    have heq := (hm₁.eq_of_num hm hnum).1
    cases hstate : ((sys.state g₁).shards i).state with
    | serving => rfl
    | bePulling => exact absurd ⟨hnum, hstate⟩ hno
    | pulling =>
      have hown := (hm₁.incoming i (.inl hstate)).1
      rw [heq, hcur] at hown
      exact absurd hown hne.symm
    | gcing =>
      have hown := (hm₁.incoming i (.inr hstate)).1
      rw [heq, hcur] at hown
      exact absurd hown hne.symm
  obtain ⟨heq, heq'⟩ := (ho.matches g₁ r).eq_of_num hm hr
  obtain ⟨q, shard, response, hq, -, -, hnum, -, hgcing⟩ := ho.served_outgoing hserved
    (by rw [heq', hg₁]) (by rw [heq, hcur]; exact hne.symm) (by rw [heq, hcur]; exact hg₀)
  rw [heq, hcur] at hq hnum hgcing
  have hlen : q + 1 ≤ (sys.groups g).log.length := (List.getElem?_eq_some_iff.1 hq).1
  have hlater : Later (sys.server g (q + 1)) (sys.state g) := later_server hlen
  have hle₁ : (sys.server g q).currentConfig.num ≤ (sys.server g (q + 1)).currentConfig.num :=
    server_num_le q.le_succ
  have hle₂ := hlater.num_le
  have hev := hlater.evolves (by omega) i
  rw [hi, hgcing] at hev
  cases hev.of_pulling

/-- A shard is kept for pulling only as long as its new owner is behind, or is not done with it. -/
theorem Staffed.taker_behind (h : Staffed running sys) (hg : g ∈ running)
    (hi : ((sys.state g).shards i).state = .bePulling)
    (hle : (sys.state g).currentConfig.num ≤
      (sys.state ((sys.state g).currentConfig.shards i)).currentConfig.num) :
    (sys.state ((sys.state g).currentConfig.shards i)).currentConfig.num =
        (sys.state g).currentConfig.num ∧
      (((sys.state ((sys.state g).currentConfig.shards i)).shards i).state = .pulling ∨
        ((sys.state ((sys.state g).currentConfig.shards i)).shards i).state = .gcing) := by
  have ho := h.origin
  have hm : Matches sys g (sys.state g) := ho.matches g _
  obtain ⟨hg₀, -⟩ := h.outgoing hg hi
  obtain ⟨hlast, hne, -⟩ := hm.outgoing i hi
  generalize hg₂ : (sys.state g).currentConfig.shards i = g₂ at *
  have hm₂ : Matches sys g₂ (sys.state g₂) := ho.matches g₂ _
  by_contra hno
  obtain ⟨r, hr, hserved⟩ := ho.exists_served (i := i) hle fun hnum => by
    cases hstate : ((sys.state g₂).shards i).state with
    | serving => rfl
    | pulling => exact absurd ⟨hnum, .inl hstate⟩ hno
    | gcing => exact absurd ⟨hnum, .inr hstate⟩ hno
    | bePulling =>
      have hown := (hm₂.outgoing i hstate).1
      rw [(hm₂.eq_of_num hm hnum).2, hlast] at hown
      exact absurd hown hne.symm
  obtain ⟨heq, heq'⟩ := (ho.matches g₂ r).eq_of_num hm hr
  have hlast' : (sys.server g₂ r).lastConfig.shards i = g := by rw [heq', hlast]
  have hdel := ho.source_deleted hserved (by rw [heq, hg₂]) (by rw [hlast']; exact hne.symm)
    (by rw [hlast']; exact hg₀)
  rw [hlast'] at hdel
  exact hdel hr.symm hi

/-- As long as not everything is settled, some running group can do something about it: one of
those with the smallest config number. -/
theorem Staffed.progress (h : Staffed running sys) (hno : ¬ Settled running sys) :
    ∃ sys', Reach System.step (Undisturbed running) sys sys' ∧
      sys'.remaining running < sys.remaining running := by
  have hne : running.Nonempty := by
    by_contra hempty
    refine hno fun g hg => absurd ⟨g, hg⟩ hempty
  obtain ⟨g₀, hg₀, hmin⟩ :=
    running.exists_min_image (fun g => (sys.state g).currentConfig.num) hne
  generalize hn : (sys.state g₀).currentConfig.num = n at hmin
  by_cases hpull : ∃ g ∈ running, (sys.state g).currentConfig.num = n ∧
      ∃ i, ((sys.state g).shards i).state = .pulling
  · obtain ⟨g, hg, rfl, i, hi⟩ := hpull
    obtain ⟨-, hrun, -⟩ := h.incoming hg (.inl hi)
    obtain ⟨hnum, hsource⟩ := h.source_ready hg hi (hmin _ hrun)
    exact h.pull hg hi hnum hsource
  by_cases hcollect : ∃ g ∈ running, (sys.state g).currentConfig.num = n ∧
      ∃ i, ((sys.state g).shards i).state = .gcing
  · obtain ⟨g, hg, rfl, i, hi⟩ := hcollect
    obtain ⟨-, hrun, -⟩ := h.incoming hg (.inr hi)
    exact h.collect hg hi (hmin _ hrun)
  have hidle : ∀ g ∈ running, (sys.state g).currentConfig.num = n →
      ∀ i, ((sys.state g).shards i).state = .serving := by
    rintro g hg rfl i
    cases hstate : ((sys.state g).shards i).state with
    | serving => rfl
    | pulling => exact absurd ⟨g, hg, rfl, i, hstate⟩ hpull
    | gcing => exact absurd ⟨g, hg, rfl, i, hstate⟩ hcollect
    | bePulling =>
      obtain ⟨-, hrun⟩ := h.outgoing hg hstate
      obtain ⟨hnum, hbusy⟩ := h.taker_behind hg hstate (hmin _ hrun)
      rcases hbusy with hbusy | hbusy
      · exact absurd ⟨_, hrun, hnum, i, hbusy⟩ hpull
      · exact absurd ⟨_, hrun, hnum, i, hbusy⟩ hcollect
  by_cases hlt : n + 1 < sys.ctrler.configs.length
  · subst hn
    exact h.advance hg₀ (hidle g₀ hg₀ rfl) hlt
  -- everybody is at the latest config
  refine absurd (fun g hg => ?_) hno
  have hm : Matches sys g (sys.state g) := h.origin.matches g _
  have hlt' := (List.getElem?_eq_some_iff.1 hm.current).1
  have hnum : (sys.state g).currentConfig.num = n := by
    have hle := hmin g hg
    omega
  refine ⟨?_, hidle g hg hnum⟩
  rw [List.getLast?_eq_getElem?, ← hm.current]
  congr 1
  omega

end

end DistLabs.Shardkv
