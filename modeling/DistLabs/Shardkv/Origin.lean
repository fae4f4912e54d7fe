import DistLabs.Shardctrler.History
import DistLabs.Shardkv.Commands
import DistLabs.Shardkv.System

/-!
# Where the commands come from

Histories only grow (`Grows`), so what a server saw when it started a command, some replica of its
group still sees: every command that a group has started or committed is one that a server of the
system could start now (`Origin`). When it was started need not be remembered. A config that takes
effect was started by a replica with the config number from before, and such a replica cannot be
further in the log (`Origin.idle_of_addConfig`); the results about whole runs go through the logs
of the state they end in.
-/

namespace DistLabs.Shardkv

open Lib Shardctrler

/-! ## Later states of the system -/

/-- In `sys'` the histories of `sys` have grown. -/
structure Grows (sys sys' : System) : Prop where
  configs : sys.ctrler.configs <+: sys'.ctrler.configs
  log : ∀ g, (sys.groups g).log <+: (sys'.groups g).log

section
variable {sys sys' sys'' : System} {g : Gid} {k q : Nat} {command : Command}

theorem Grows.refl (sys : System) : Grows sys sys :=
  ⟨List.prefix_refl _, fun _ => List.prefix_refl _⟩

theorem Grows.trans (h : Grows sys sys') (h' : Grows sys' sys'') : Grows sys sys'' :=
  ⟨h.configs.trans h'.configs, fun g => (h.log g).trans (h'.log g)⟩

/-- Histories grow with every step. -/
theorem grows_step {a : Action} (hst : sys.step a = some sys') : Grows sys sys' := by
  rcases System.step_cases hst with ⟨o, op, p, -, hp, rfl⟩ | ⟨g, command, -, -, rfl⟩ |
    ⟨g, j, command, -, -, rfl⟩
  · exact ⟨configs_grow hp, fun _ => List.prefix_refl _⟩
  · exact ⟨List.prefix_refl _, fun g' => by rw [System.start_log]⟩
  · refine ⟨List.prefix_refl _, fun g' => ?_⟩
    by_cases hg : g' = g
    · subst hg
      rw [System.committed_groups_self]
      exact List.prefix_append _ _
    · rw [System.committed_groups_of_ne hg]

/-- What a commit does to the replicated state of its group. -/
theorem step_commit {j : Nat} (hst : sys.step (.commit g j) = some sys')
    (hc : (sys.groups g).started[j]? = some command) :
    sys'.state g = (sys.state g).apply command := by
  simp only [System.step, hc, Option.bind_eq_bind, Option.bind_some] at hst
  cases hst
  exact System.committed_state_self j

/-- A commit appends its command. -/
theorem step_commit_log {j : Nat} (hst : sys.step (.commit g j) = some sys')
    (hc : (sys.groups g).started[j]? = some command) :
    (sys'.groups g).log[(sys.groups g).log.length]? = some command := by
  simp only [System.step, hc, Option.bind_eq_bind, Option.bind_some] at hst
  cases hst
  show ((sys.committed g j command).groups g).log[(sys.groups g).log.length]? = _
  rw [System.committed_groups_self]
  exact List.getElem?_concat_length

/-- Client commands are started by client actions only. -/
theorem step_client {a : Action} (hst : sys.step a = some sys') {op : GetPutAppendArgs}
    (hop : .getPutAppend op ∈ (sys'.groups g).log ∨ .getPutAppend op ∈ (sys'.groups g).started) :
    (.getPutAppend op ∈ (sys.groups g).log ∨ .getPutAppend op ∈ (sys.groups g).started) ∨
      ∃ k, a = .client g k op := by
  rcases System.step_cases hst with ⟨o, op', p, -, -, rfl⟩ | ⟨g', command, -, hclient, rfl⟩ |
    ⟨g', j, command, rfl, hc, rfl⟩
  · exact .inl hop
  · rw [System.start_log] at hop
    by_cases hg : g = g'
    · subst hg
      simp only [System.start, System.setGroup, Function.update_self, List.mem_append,
        List.mem_singleton] at hop
      rcases hop with hop | hop | rfl
      · exact .inl (.inl hop)
      · exact .inl (.inr hop)
      · exact .inr (hclient op rfl)
    · simp only [System.start, System.setGroup, Function.update_of_ne hg] at hop
      exact .inl hop
  · by_cases hg : g = g'
    · subst hg
      rw [System.committed_groups_self] at hop
      rcases hop with hop | hop
      · rcases List.mem_append.1 hop with hop | hop
        · exact .inl (.inl hop)
        · rw [List.mem_singleton.1 hop]
          exact .inl (.inr (List.mem_of_getElem? hc))
      · exact .inl (.inr (List.mem_of_mem_eraseIdx hop))
    · rw [System.committed_groups_of_ne hg] at hop
      exact .inl hop

/-- A step leaves a replica as it was, or commits a command that the replica is the first to
apply. -/
theorem step_server {a : Action} (hst : sys.step a = some sys') (g : Gid) (k : Nat) :
    sys'.server g k = sys.server g k ∨
      ∃ j command, a = .commit g j ∧ (sys.groups g).started[j]? = some command ∧
        sys'.server g k = (sys.state g).apply command := by
  rcases System.step_cases hst with ⟨o, op, p, -, hp, rfl⟩ | ⟨g', command, -, hclient, rfl⟩ |
    ⟨g', j, command, rfl, hc, rfl⟩
  · exact .inl rfl
  · exact .inl (System.start_server g k)
  · refine (System.committed_server_cases g k j).imp_right ?_
    rintro ⟨rfl, heq⟩
    exact ⟨j, command, rfl, hc, heq⟩

/-- Along a run the system grows. -/
theorem grows_reach {ok : System → Action → Prop} (h : Reach System.step ok sys sys') :
    Grows sys sys' := by
  induction h with
  | init => exact .refl sys
  | step _ _ hst ih => exact ih.trans (grows_step hst)

theorem Grows.config (h : Grows sys sys') {n : Nat} {config : Config}
    (hn : sys.ctrler.configs[n]? = some config) : sys'.ctrler.configs[n]? = some config :=
  getElem?_grown h.configs hn

/-- Commands stay in the log. -/
theorem Grows.log_getElem? (h : Grows sys sys') (hq : (sys.groups g).log[q]? = some command) :
    (sys'.groups g).log[q]? = some command := getElem?_grown (h.log g) hq

/-- A replica does not change when the log grows. -/
theorem Grows.server (h : Grows sys sys') (hk : k ≤ (sys.groups g).log.length) :
    sys'.server g k = sys.server g k := by
  obtain ⟨l, hl⟩ := h.log g
  rw [System.server, ← hl]
  exact replica_append hk l

/-- No replica is ahead of the log. -/
theorem exists_server (sys : System) (g : Gid) (k : Nat) :
    ∃ k' ≤ (sys.groups g).log.length, sys.server g k' = sys.server g k := by
  rcases Nat.le_total k (sys.groups g).log.length with hk | hk
  · exact ⟨k, hk, rfl⟩
  · exact ⟨_, le_rfl, (replica_of_length_le hk).symm⟩

/-- The states that there were are still those of some replica. -/
theorem Grows.exists_server (h : Grows sys sys') (g : Gid) (k : Nat) :
    ∃ k', sys'.server g k' = sys.server g k := by
  obtain ⟨k', hk', heq⟩ := Shardkv.exists_server sys g k
  exact ⟨k', (h.server hk').trans heq⟩

/-! ## Replicas along the log -/

/-- The next command of the log. -/
theorem server_succ (hq : (sys.groups g).log[q]? = some command) :
    sys.server g (q + 1) = (sys.server g q).apply command := replica_succ hq

/-- The state after one more command. -/
theorem applied_server (hq : (sys.groups g).log[q]? = some command) :
    Applied (sys.server g q) command (sys.server g (q + 1)) := by
  rw [server_succ hq]
  exact applied _ _

/-- The config after the command that adds it. -/
theorem server_addConfig {newConfig : Config}
    (hq : (sys.groups g).log[q]? = some (.addConfig newConfig))
    (hnum : newConfig.num = (sys.server g q).currentConfig.num + 1) :
    (sys.server g (q + 1)).currentConfig = newConfig := by
  rw [server_succ hq]
  show ((sys.server g q).processAddConfig newConfig).1.currentConfig = _
  rw [ShardKV.processAddConfig, if_pos hnum]

/-- A longer log leads to a later state. -/
theorem later_server (h : k ≤ q) : Later (sys.server g k) (sys.server g q) :=
  replica_rel Later.refl Later.trans later_apply h

/-- A longer log leads to a table with more requests. -/
theorem requestsLe_server (h : k ≤ q) :
    RequestsLe (sys.server g k).lastRequestMap (sys.server g q).lastRequestMap :=
  replica_rel (R := fun kv kv' : ShardKV => RequestsLe kv.lastRequestMap kv'.lastRequestMap)
    (fun _ => .refl _) (fun h h' => h.trans h') apply_requests h

/-- Replicas of a group know their group. -/
theorem server_gid (sys : System) (g : Gid) (k : Nat) : (sys.server g k).gid = g :=
  (later_server (Nat.zero_le k)).gid

/-- A longer log leads to a later config. -/
theorem server_num_le (h : k ≤ q) :
    (sys.server g k).currentConfig.num ≤ (sys.server g q).currentConfig.num :=
  (later_server h).num_le

/-- What holds at the start and is kept by each command of the log, holds of every replica. -/
theorem server_induction {P : ShardKV → Prop} (sys : System) (g : Gid) (h0 : P (.startServer g))
    (hsucc : ∀ q command, (sys.groups g).log[q]? = some command → P (sys.server g q) →
      P (sys.server g (q + 1))) (k : Nat) : P (sys.server g k) := by
  obtain ⟨k', hk', heq⟩ := exists_server sys g k
  rw [← heq]
  clear heq
  induction k' with
  | zero => exact h0
  | succ q ih => exact hsucc q _ (List.getElem?_eq_getElem (by omega)) (ih (by omega))

/-! ## Every command is one that could be started now -/

/-- The history of the controller is in order, and every command of a group could be started
now. -/
structure Origin (sys : System) : Prop where
  history : History sys.ctrler
  log : ∀ g, ∀ command ∈ (sys.groups g).log, sys.Starts g command
  started : ∀ g, ∀ command ∈ (sys.groups g).started, sys.Starts g command

/-- What could be started can still be started. -/
theorem starts_mono (hist : History sys.ctrler) (h : Grows sys sys') (hs : sys.Starts g command) :
    sys'.Starts g command := by
  cases hs with
  | @client _ k _ _ hc =>
    obtain ⟨k', hk'⟩ := h.exists_server g k
    rw [← hk'] at hc
    exact .client hc
  | @requestConfig _ k newConfig hidle hquery hnum =>
    obtain ⟨k', hk'⟩ := h.exists_server g k
    rw [← hk'] at hidle hquery hnum
    have hconfig := h.config (hist.of_processQuery (by exact_mod_cast hquery) hnum)
    exact .requestConfig hidle (by exact_mod_cast processQuery_of_getElem? hconfig) hnum
  | @insert _ oldGid k k₀ ids reply hids hreply hok =>
    obtain ⟨k', hk'⟩ := h.exists_server g k
    obtain ⟨k₀', hk₀'⟩ := h.exists_server oldGid k₀
    rw [← hk'] at hids hreply ⊢
    rw [← hk₀'] at hreply
    exact .insert hids hreply hok
  | @delete g' _ k ids hids =>
    obtain ⟨k', hk'⟩ := h.exists_server g' k
    rw [← hk'] at hids ⊢
    exact .delete hids
  | @adjust _ oldGid k j ids hids hlog hok =>
    obtain ⟨k', hk'⟩ := h.exists_server g k
    have hj := (List.getElem?_eq_some_iff.1 hlog).1
    rw [← h.server hj.le] at hok
    rw [← hk'] at hids hlog hok ⊢
    exact .adjust hids (h.log_getElem? hlog) hok

theorem origin_init : Origin .init := by
  refine ⟨history_init, fun g command hc => ?_, fun g command hc => ?_⟩
  · cases hc
  · cases hc

/-- After a step, commands still have their origin. -/
theorem Origin.step {a : Action} (h : Origin sys) (hst : sys.step a = some sys') :
    Origin sys' := by
  have hmono : ∀ {g command}, sys.Starts g command → sys'.Starts g command :=
    starts_mono h.history (grows_step hst)
  rcases System.step_cases hst with ⟨o, op, p, -, hp, rfl⟩ | ⟨g, command, hs, -, rfl⟩ |
    ⟨g, j, command, -, hj, rfl⟩
  · exact ⟨h.history.execute hp, fun g command hc => hmono (h.log g command hc),
      fun g command hc => hmono (h.started g command hc)⟩
  · refine ⟨h.history, fun g' command' hc => hmono (h.log g' command' ?_),
      fun g' command' hc => hmono ?_⟩
    · rwa [System.start_log] at hc
    · by_cases hg : g' = g
      · subst hg
        simp only [System.start, System.setGroup, Function.update_self, List.mem_append,
          List.mem_singleton] at hc
        rcases hc with hc | rfl
        · exact h.started g' command' hc
        · exact hs
      · simp only [System.start, System.setGroup, Function.update_of_ne hg] at hc
        exact h.started g' command' hc
  · have hs := h.started g command (List.mem_of_getElem? hj)
    refine ⟨h.history, fun g' command' hc => hmono ?_, fun g' command' hc => hmono ?_⟩
    · by_cases hg : g' = g
      · subst hg
        rw [System.committed_groups_self, List.mem_append, List.mem_singleton] at hc
        rcases hc with hc | rfl
        · exact h.log g' command' hc
        · exact hs
      · rw [System.committed_groups_of_ne hg] at hc
        exact h.log g' command' hc
    · by_cases hg : g' = g
      · subst hg
        rw [System.committed_groups_self] at hc
        exact h.started g' command' (List.mem_of_mem_eraseIdx hc)
      · rw [System.committed_groups_of_ne hg] at hc
        exact h.started g' command' hc

/-- In every reachable state commands have their origin. -/
theorem origin_reach {ok : System → Action → Prop} (h : Reach System.step ok .init sys) :
    Origin sys :=
  h.invariant origin_init fun hs _ hst => hs.step hst

/-! ## Configs come to groups that are idle -/

/-- A config that takes effect finds all shards served. The replica that started it was idle under
the same config number, and was not further in the log than the command: there the number is
larger. -/
theorem Origin.idle_of_addConfig (h : Origin sys) {newConfig : Config}
    (hq : (sys.groups g).log[q]? = some (.addConfig newConfig))
    (hnum : newConfig.num = (sys.server g q).currentConfig.num + 1) :
    ¬ (sys.server g q).isProcessShardCommand := by
  cases h.log g _ (List.mem_of_getElem? hq) with
  | client hc => cases clientCommand_eq hc
  | @requestConfig _ k _ hidle _ hnum' =>
    have hle : k ≤ q := by
      by_contra hk
      have hle' : (sys.server g (q + 1)).currentConfig.num ≤ (sys.server g k).currentConfig.num :=
        server_num_le (not_le.1 hk)
      rw [server_addConfig hq hnum] at hle'
      omega
    exact (later_server hle).idle (by omega) hidle

/-- So does a config that would take effect now. -/
theorem Origin.idle_of_started (h : Origin sys) {newConfig : Config}
    (hc : .addConfig newConfig ∈ (sys.groups g).started)
    (hnum : newConfig.num = (sys.state g).currentConfig.num + 1) :
    ¬ (sys.state g).isProcessShardCommand := by
  cases h.started g _ hc with
  | client hc => cases clientCommand_eq hc
  | @requestConfig _ k _ hidle _ hnum' =>
    obtain ⟨k', hk', heq⟩ := exists_server sys g k
    rw [← heq] at hidle hnum'
    exact (later_server hk').idle (by rw [System.state] at hnum; omega) hidle

end

end DistLabs.Shardkv
