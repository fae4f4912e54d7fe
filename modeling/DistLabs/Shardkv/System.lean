import DistLabs.Lib.Replica
import DistLabs.Lib.Transition
import DistLabs.Shardkv.Server

/-!
# The controller and the groups

A `System` is the replicated state of the controller and, for every group, the log of its committed
commands and the commands that its servers have started. Raft is taken for granted: all replicas of
a group apply its one log, and a command that was started is committed at most once, at any later
time or never.

A handler or monitor runs on a replica, which may lag: `k` is how many commands of the log it has
applied. It may be any replica, because any server can be the leader or still take itself for it.
Logs only grow, so an exchange of messages is one action at the moment its last message arrives:
whatever its servers read before, replicas that lag still have, and a message that is lost is an
action that never happens.

* The servers that a config names for a group are replicas of that group.
* A `Query` that is answered with a config of another number than the one asked for is dropped by
  `monitorRequestConfig`.
* `DeleteShards` answers `OK` when its command was applied with that result.
-/

namespace DistLabs.Shardkv

open Lib Shardctrler

/-- A group: its committed commands, and those that were started and are not committed. -/
structure Group where
  log : List Command
  started : List Command

/-- The controller and the groups. -/
structure System where
  ctrler : ShardCtrler
  groups : Gid → Group

/-- The steps of a system. `k` says how far the acting replica of group `g` is, `k'` how far the
replica of group `oldGid` is that answers it. -/
inductive Action where
  /-- The controller applies an operation. -/
  | ctrler (o : Orders) (op : Op)
  /-- `Get` or `PutAppend`. -/
  | client (g : Gid) (k : Nat) (args : GetPutAppendArgs)
  /-- `monitorRequestConfig`. -/
  | requestConfig (g : Gid) (k : Nat)
  /-- `monitorInsert` and `GetShards`. -/
  | insert (g : Gid) (k : Nat) (oldGid : Gid) (k' : Nat)
  /-- `monitorGC` and the beginning of `DeleteShards`. -/
  | delete (g : Gid) (k : Nat) (oldGid : Gid)
  /-- The end of `DeleteShards`, whose command is number `j` in the log of `oldGid`, and
  `monitorGC`. -/
  | adjust (g : Gid) (k : Nat) (oldGid : Gid) (j : Nat)
  /-- The command number `j` of those that were started is committed. -/
  | commit (g : Gid) (j : Nat)

/-- The handlers start commands for their own requests. -/
theorem clientCommand_eq {kv : ShardKV} {args : GetPutAppendArgs} {command : Command}
    (h : kv.clientCommand args = some command) : command = .getPutAppend args := by
  unfold ShardKV.clientCommand at h
  split at h
  · cases h
  · split at h
    · cases h
    · cases h
      rfl

namespace System

/-- Nothing has happened yet. -/
def init : System where
  ctrler := .init
  groups := fun _ => ⟨[], []⟩

variable (sys : System)

/-- A replica of group `g`. -/
def server (g : Gid) (k : Nat) : ShardKV :=
  replica ShardKV.apply (.startServer g) (sys.groups g).log k

/-- The replicated state of group `g`, after all its committed commands. -/
def state (g : Gid) : ShardKV := sys.server g (sys.groups g).log.length

/-- Replace group `g`. -/
def setGroup (g : Gid) (group : Group) : System :=
  { sys with groups := Function.update sys.groups g group }

/-- A server of group `g` calls `rf.Start`. -/
def start (g : Gid) (command : Command) : System :=
  sys.setGroup g { sys.groups g with started := (sys.groups g).started ++ [command] }

/-- One step; `none` when the action is not enabled, or panics. -/
def step : Action → Option System
  | .ctrler o op => (sys.ctrler.execute o op).map fun p => { sys with ctrler := p.1 }
  | .client g k args => ((sys.server g k).clientCommand args).map (sys.start g)
  | .requestConfig g k => do
    let kv := sys.server g k
    if kv.isProcessShardCommand then none
    let newConfig ← sys.ctrler.processQuery (kv.currentConfig.num + 1)
    if newConfig.num = kv.currentConfig.num + 1 then return sys.start g (.addConfig newConfig)
    else none
  | .insert g k oldGid k' => do
    let kv := sys.server g k
    let shardIds ← kv.shardIdsFor .pulling oldGid
    let configNum := kv.currentConfig.num
    let reply := (sys.server oldGid k').getShards { gid := oldGid, shardIds, configNum }
    if reply.err = .ok then return sys.start g (.insertShard { reply with configNum })
    else none
  | .delete g k oldGid => do
    let kv := sys.server g k
    let shardIds ← kv.shardIdsFor .gcing oldGid
    return sys.start oldGid (.deleteShard { shardIds, configNum := kv.currentConfig.num })
  | .adjust g k oldGid j => do
    let kv := sys.server g k
    let shardIds ← kv.shardIdsFor .gcing oldGid
    let configNum := kv.currentConfig.num
    let command := .deleteShard { shardIds, configNum }
    if (sys.groups oldGid).log[j]? = some command ∧
        ((sys.server oldGid j).execute command).2.err = .ok then
      return sys.start g (.adjustShardState { shardIds, configNum })
    else none
  | .commit g j => do
    let command ← (sys.groups g).started[j]?
    return sys.setGroup g
      ⟨(sys.groups g).log ++ [command], (sys.groups g).started.eraseIdx j⟩

/-! ## What a step can do -/

/-- The commands that a server of a group may start. -/
inductive Starts : Gid → Command → Prop
  | client {g : Gid} {k : Nat} {args : GetPutAppendArgs} {command : Command}
      (h : (sys.server g k).clientCommand args = some command) : Starts g command
  | requestConfig {g : Gid} {k : Nat} {newConfig : Config}
      (hidle : ¬ (sys.server g k).isProcessShardCommand)
      (hquery : sys.ctrler.processQuery ((sys.server g k).currentConfig.num + 1) = some newConfig)
      (hnum : newConfig.num = (sys.server g k).currentConfig.num + 1) :
      Starts g (.addConfig newConfig)
  | insert {g oldGid : Gid} {k k' : Nat} {shardIds : List (Fin NShards)} {reply : PullShardReply}
      (hids : (sys.server g k).shardIdsFor .pulling oldGid = some shardIds)
      (hreply : (sys.server oldGid k').getShards
        ⟨oldGid, shardIds, (sys.server g k).currentConfig.num⟩ = reply)
      (hok : reply.err = .ok) :
      Starts g (.insertShard { reply with configNum := (sys.server g k).currentConfig.num })
  | delete {g oldGid : Gid} {k : Nat} {shardIds : List (Fin NShards)}
      (hids : (sys.server g k).shardIdsFor .gcing oldGid = some shardIds) :
      Starts oldGid (.deleteShard ⟨shardIds, (sys.server g k).currentConfig.num⟩)
  | adjust {g oldGid : Gid} {k j : Nat} {shardIds : List (Fin NShards)}
      (hids : (sys.server g k).shardIdsFor .gcing oldGid = some shardIds)
      (hlog : (sys.groups oldGid).log[j]? =
        some (.deleteShard ⟨shardIds, (sys.server g k).currentConfig.num⟩))
      (hok : ((sys.server oldGid j).execute
        (.deleteShard ⟨shardIds, (sys.server g k).currentConfig.num⟩)).2.err = .ok) :
      Starts g (.adjustShardState ⟨shardIds, (sys.server g k).currentConfig.num⟩)

/-- Group `g` with one more command in its log. -/
def committed (g : Gid) (j : Nat) (command : Command) : System :=
  sys.setGroup g ⟨(sys.groups g).log ++ [command], (sys.groups g).started.eraseIdx j⟩

variable {sys} {sys' : System}

/-- The controller applies an operation, a server starts a command, or one is committed. -/
theorem step_cases {a : Action} (hst : sys.step a = some sys') :
    (∃ o op p, a = .ctrler o op ∧ sys.ctrler.execute o op = some p ∧
      sys' = { sys with ctrler := p.1 }) ∨
    (∃ g command, sys.Starts g command ∧
      (∀ args, command = .getPutAppend args → ∃ k, a = .client g k args) ∧
      sys' = sys.start g command) ∨
    ∃ g j command, a = .commit g j ∧ (sys.groups g).started[j]? = some command ∧
      sys' = sys.committed g j command := by
  cases a with
  | ctrler o op =>
    obtain ⟨p, hp, rfl⟩ := Option.map_eq_some_iff.1 hst
    exact .inl ⟨o, op, p, rfl, hp, rfl⟩
  | client g k args =>
    obtain ⟨command, hc, rfl⟩ := Option.map_eq_some_iff.1 hst
    refine .inr (.inl ⟨g, command, .client hc, fun args' hargs' => ⟨k, ?_⟩, rfl⟩)
    rw [clientCommand_eq hc] at hargs'
    cases hargs'
    rfl
  | requestConfig g k =>
    simp only [step] at hst
    split at hst
    · cases hst
    next hidle =>
    rw [Option.bind_eq_bind, Option.bind_eq_some_iff] at hst
    obtain ⟨newConfig, hquery, hst⟩ := hst
    split at hst
    · next hnum =>
      cases hst
      exact .inr (.inl ⟨g, _, .requestConfig hidle hquery hnum, (fun _ h => by cases h), rfl⟩)
    · cases hst
  | insert g k oldGid k' =>
    simp only [step, Option.bind_eq_bind, Option.bind_eq_some_iff] at hst
    obtain ⟨shardIds, hids, hst⟩ := hst
    split at hst
    · next hok =>
      cases hst
      exact .inr (.inl ⟨g, _, .insert hids rfl hok, (fun _ h => by cases h), rfl⟩)
    · cases hst
  | delete g k oldGid =>
    simp only [step, Option.bind_eq_bind, Option.bind_eq_some_iff] at hst
    obtain ⟨shardIds, hids, hst⟩ := hst
    cases hst
    exact .inr (.inl ⟨oldGid, _, .delete hids, (fun _ h => by cases h), rfl⟩)
  | adjust g k oldGid j =>
    simp only [step, Option.bind_eq_bind, Option.bind_eq_some_iff] at hst
    obtain ⟨shardIds, hids, hst⟩ := hst
    split at hst
    · next hdone =>
      cases hst
      exact .inr (.inl ⟨g, _, .adjust hids hdone.1 hdone.2, (fun _ h => by cases h), rfl⟩)
    · cases hst
  | commit g j =>
    simp only [step, Option.bind_eq_bind, Option.bind_eq_some_iff] at hst
    obtain ⟨command, hc, hst⟩ := hst
    cases hst
    exact .inr (.inr ⟨g, j, command, rfl, hc, rfl⟩)

/-! ## Logs only grow -/

section
variable {g : Gid} {command : Command}

/-- A command that is started is not in the log yet. -/
theorem start_log (g' : Gid) : ((sys.start g command).groups g').log = (sys.groups g').log := by
  by_cases hg : g' = g
  · subst hg
    simp only [start, setGroup, Function.update_self]
  · simp only [start, setGroup, Function.update_of_ne hg]

/-- A command that is started changes no replica. -/
@[simp] theorem start_server (g' : Gid) (k : Nat) :
    (sys.start g command).server g' k = sys.server g' k := by
  rw [server, start_log, server]

/-- A command that is started changes no state. -/
@[simp] theorem start_state (g' : Gid) : (sys.start g command).state g' = sys.state g' := by
  rw [state, start_server, start_log, state]

theorem committed_groups_self (j : Nat) : (sys.committed g j command).groups g =
    ⟨(sys.groups g).log ++ [command], (sys.groups g).started.eraseIdx j⟩ :=
  Function.update_self ..

theorem committed_groups_of_ne {g' : Gid} (h : g' ≠ g) (j : Nat) :
    (sys.committed g j command).groups g' = sys.groups g' := Function.update_of_ne h ..

theorem committed_state_of_ne {g' : Gid} (h : g' ≠ g) (j : Nat) :
    (sys.committed g j command).state g' = sys.state g' := by
  rw [state, server, committed_groups_of_ne h]
  rfl

/-- The command is applied to the replicated state. -/
theorem committed_state_self (j : Nat) :
    (sys.committed g j command).state g = (sys.state g).apply command := by
  rw [state, server, committed_groups_self]
  simp only [List.length_append, List.length_singleton]
  exact replica_concat command

/-- A replica has a state from before, or it is the first to apply the command. -/
theorem committed_server_cases (g' : Gid) (k j : Nat) :
    (sys.committed g j command).server g' k = sys.server g' k ∨
      g' = g ∧ (sys.committed g j command).server g' k = (sys.state g).apply command := by
  by_cases hg : g' = g
  swap
  · rw [server, committed_groups_of_ne hg]
    exact .inl rfl
  subst hg
  rcases Nat.lt_or_ge (sys.groups g').log.length k with hlt | hle
  · refine .inr ⟨rfl, ?_⟩
    rw [server, committed_groups_self, replica_of_length_le (by simp; omega),
      ← committed_state_self j, state, server, committed_groups_self]
  · refine .inl ?_
    rw [server, committed_groups_self]
    exact replica_append hle _

end

end System

end DistLabs.Shardkv
