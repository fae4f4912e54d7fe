import DistLabs.Shardctrler.Linearizable
import DistLabs.Stack.Refinement

/-!
# shardctrler on raft.go

`shardctrler/server.go` with the Raft of `raft.go` below it. Its `applier` takes every message for
a command, and it never hands over a snapshot, so a server that is started again executes the whole
log. In orderly runs every history of the clerks without the `Query` calls that return the zero
`Config` is linearizable (`ctrler_on_raft_linearizable`), and `applier` neither panics nor blocks
as long as the shards of `Move` and the numbers of `Query` are in range
(`ctrler_applier_never_stuck`).
-/

namespace DistLabs.Shardctrler

open Lib

/-- The body of the loop of `applier`. The conversion of a command that is no `Op` panics, and so
does that of the command of a snapshot message. -/
def applyMsg (o : Orders) (sc : ShardCtrler) : ApplyMsg Op → Option (ShardCtrler × Option Config)
  | .command command _ _ => do
    let op ← command
    let (sc, configure) ← sc.execute o op
    return (sc, some configure)
  | .snapshot .. => none

/-- `shardctrler` on top of Raft. -/
def ctrlerHost (o : Orders) : ServiceHost ShardCtrler Op Config Config where
  start _ := .init
  applier := applyMsg o
  encodeState _ := none
  known sc op := if sc.isInvalidRequest op.clientId op.requestId then some .zero else none
  reply := replyConfig
  clientId := Op.clientId
  requestId := Op.requestId

/-- The order of the loops over maps has no part in what a server does, so that it does not matter
that all servers have one order for all executions. -/
theorem ctrlerHost_orders (o o' : Orders) : ctrlerHost o = ctrlerHost o' := by
  have happly : applyMsg o = applyMsg o' := by
    funext sc msg
    cases msg with
    | command command =>
      simp only [applyMsg, fun op => sc.execute_orders o o' op]
    | snapshot => rfl
  rw [ctrlerHost, happly]
  rfl

/-- `shardctrler` is the service `ctrler`, with the same states. -/
theorem ctrlerHost_implements (o : Orders) :
    (ctrlerHost o).Implements ctrler fun sc _ sc' => sc = sc' where
  start := rfl
  restore := by
    intro sc k sc' b _ hb
    cases hb
  command := by
    rintro sc k sc₀ op term sc' res rfl happ
    have happ' : applyMsg o sc (.command (some op) (k + 1) term) = some (sc', res) := happ
    simp only [applyMsg, Option.bind_eq_bind, Option.bind_some, Option.bind_eq_some_iff,
      Prod.exists] at happ'
    obtain ⟨sc₁, configure, hexec, heq⟩ := happ'
    cases heq
    exact ⟨sc', configure, (ctrler_execute o sc op).trans hexec, rfl, rfl⟩
  install := by
    intro _ _ _ _ _ _ _ _ _ _ _ _ _ hb
    cases hb
  known := by
    rintro sc k sc' op rfl
    rfl
  reply := rfl
  clientId := rfl
  requestId := rfl

/-- `shardctrler` on a cluster of `n` servers, with its clerks. -/
abbrev CtrlerStack (n : Nat) := Stack n ShardCtrler Op Config Config

/-- The states that orderly runs reach. -/
abbrev OrderlyRun (o : Orders) {n : Nat} : CtrlerStack n → Prop :=
  Reach (Stack.step (ctrlerHost o)) Stack.Orderly (.init (ctrlerHost o))

/-- What one more entry does, if it can be executed. -/
theorem stateAt_succ_cases {log : List (ServiceEntry Op)} {k : Nat} {sc' : ShardCtrler}
    (hsc' : ctrler.stateAt log (k + 1) = some sc') : ∃ sc, ctrler.stateAt log k = some sc ∧
      (sc' = sc ∨ ∃ op configure, sc.execute .increasing op = some (sc', configure)) := by
  obtain ⟨sc, hsc⟩ := Service.exists_stateAt_of_succ hsc'
  refine ⟨sc, hsc, ?_⟩
  cases hk : log[k]? with
  | none =>
    have hlen := List.getElem?_eq_none_iff.1 hk
    rw [Machine.stateAt, replica_of_length_le (hlen.trans k.le_succ),
      ← replica_of_length_le hlen] at hsc'
    rw [Machine.stateAt, hsc'] at hsc
    exact .inl (Option.some.inj hsc)
  | some e =>
    obtain ⟨configure, hexec⟩ := Service.exists_execute hk hsc hsc'
    exact .inr ⟨e.op, configure, hexec⟩

/-- Every state that a log leads to has a history of configs. -/
theorem history_stateAt {log : List (ServiceEntry Op)} {k : Nat} {sc : ShardCtrler}
    (hsc : ctrler.stateAt log k = some sc) : History sc := by
  induction k generalizing sc with
  | zero =>
    cases hsc
    exact history_init
  | succ k ih =>
    obtain ⟨sc₀, hsc₀, rfl | ⟨op, configure, hexec⟩⟩ := stateAt_succ_cases hsc
    · exact ih hsc₀
    · exact (ih hsc₀).execute hexec

/-- The history of configs grows with the log. -/
theorem configs_stateAt {log : List (ServiceEntry Op)} {j k : Nat} {sc sc' : ShardCtrler}
    (hle : j ≤ k) (hsc : ctrler.stateAt log j = some sc) (hsc' : ctrler.stateAt log k = some sc') :
    sc.configs <+: sc'.configs := by
  induction hle generalizing sc' with
  | refl =>
    rw [hsc] at hsc'
    cases hsc'
    exact List.prefix_refl _
  | step _ ih =>
    obtain ⟨sc₀, hsc₀, rfl | ⟨op, configure, hexec⟩⟩ := stateAt_succ_cases hsc'
    · exact ih hsc₀
    · exact (ih hsc₀).trans (configs_grow hexec)

section
variable {o : Orders} {n : Nat} {S : CtrlerStack n}

/-- Every history of the clerks of `shardctrler` on `raft.go` is linearizable, without the `Query`
calls that return the zero `Config`. -/
theorem ctrler_on_raft_linearizable (h : OrderlyRun o S) :
    Linearizable ctrlModel [.zero] (withoutZeros S.history) := by
  obtain ⟨net, hR, hinv⟩ := exists_refines (ctrlerHost_implements o) h
  rw [← hR.history]
  exact linearizable_of_inv hinv

/-- The histories of configs of two servers, at the same time or at different ones, do not
contradict each other. -/
theorem configs_never_fork {S' : CtrlerStack n} (h : OrderlyRun o S)
    (hlater : Reach (Stack.step (ctrlerHost o)) Stack.Orderly S S') (i j : Fin n) :
    (S.group.replicas i).state.configs <+: (S'.group.replicas j).state.configs ∨
      (S'.group.replicas j).state.configs <+: (S.group.replicas i).state.configs := by
  obtain ⟨net, net', hgrown, hR, -, hR', -⟩ :=
    exists_refines_later (ctrlerHost_implements o) h hlater
  obtain ⟨sc, hsc, hrel⟩ := (hR.agree.replica i).state
  obtain ⟨sc', hsc', hrel'⟩ := (hR'.agree.replica j).state
  rw [← Service.stateAt_grown hgrown (hR.agree.replica i).le] at hsc
  rw [hrel, hrel']
  rcases Nat.le_total (S.group.replicas i).applied (S'.group.replicas j).applied with hle | hle
  · exact .inl (configs_stateAt hle hsc hsc')
  · exact .inr (configs_stateAt hle hsc' hsc)

/-- `applier` deals with every message that it receives, if the operations that were called are in
range. -/
theorem ctrler_applier_never_stuck (h : OrderlyRun o S)
    (hrange : ∀ i op, .call i op ∈ S.history → op.InRange) (i : Fin n) (msg : ApplyMsg Op)
    (hpc : (S.group.replicas i).pc = .received msg) :
    ∃ S', S.step (ctrlerHost o) (.apply i) = some S' := by
  obtain ⟨net, hR, hinv⟩ := exists_refines (ctrlerHost_implements o) h
  refine hR.exists_applier hinv hpc ?_
  cases msg with
  | command command index term =>
    obtain ⟨op, rfl, hcall⟩ := hR.received_called hinv hpc
    obtain ⟨sc, hsc, hrel⟩ := (hR.agree.replica i).state
    obtain ⟨last, hlast⟩ := (history_stateAt hsc).exists_last
    rw [← hrel] at hlast
    obtain ⟨p, hp⟩ := Option.isSome_iff_exists.1 (execute_isSome o hlast (hrange _ op hcall))
    show (applyMsg o _ (.command (some op) index term)).isSome
    simp only [applyMsg, hp, Option.bind_eq_bind, Option.bind_some]
    rfl
  | snapshot =>
    -- no server has ever encoded its state
    obtain ⟨_, _, _, _, _, _, _, hb⟩ := hR.agree.received_snapshot hpc
    cases hb

end

/-! ## A run with a crash -/

/-- The first group joins. -/
def joined : List (StackAction 3 Op) :=
  Stack.elect 0 ++ Stack.replicated 0 firstJoin ++ Stack.answered 0

/-- The leader crashes, is started again and wins the next election. It has to execute the `Join`
again before the `Query` of another clerk. -/
def queriedAgain : List (StackAction 3 Op) :=
  [.restart 0 0] ++ Stack.elect 1 ++ Stack.replicated 1 latest ++
    [.apply 0, .group (.proceed 0), .group (.sendCommand 0)] ++ Stack.answered 1

/-- Where orderly steps lead to from the state `S`. -/
def after (S : CtrlerStack 3) (run : List (StackAction 3 Op)) : CtrlerStack 3 :=
  reached (Stack.step (ctrlerHost .increasing)) Stack.Orderly S run

/-- A group joins, the servers crash, and the config with the group is still there. -/
theorem ctrler_throughCrash :
    ((withoutZeros
      (after (.init (ctrlerHost .increasing)) (joined ++ queriedAgain)).history).any fun
      | .ret i config => i = (2, 0) ∧ config.num = 1
      | .call .. => false) = true ∧
    Linearizable ctrlModel [.zero]
      (withoutZeros (after (.init (ctrlerHost .increasing)) (joined ++ queriedAgain)).history) :=
  ⟨by decide +kernel, ctrler_on_raft_linearizable (reach_reached _)⟩

/-- A server that has crashed starts with a beginning of the configs that it had before. -/
theorem configs_never_fork_throughCrash :
    let S := after (.init (ctrlerHost .increasing)) joined
    let S' := after S [.restart 0 0]
    (S.group.replicas 0).state.configs.length = 2 ∧
      (S'.group.replicas 0).state.configs.length = 1 ∧
      ((S.group.replicas 0).state.configs <+: (S'.group.replicas 0).state.configs ∨
        (S'.group.replicas 0).state.configs <+: (S.group.replicas 0).state.configs) :=
  ⟨by decide +kernel, by decide +kernel,
    configs_never_fork (reach_reached _) (reach_reached _) 0 0⟩

/-- The applier has received the `Join` whose handler waits. -/
theorem ctrler_applier_never_stuck_join :
    ∃ S', (after (.init (ctrlerHost .increasing)) (Stack.elect 0 ++
    Stack.replicated 0 firstJoin)).step (ctrlerHost .increasing) (.apply 0) = some S' := by
  have hhistory : (after (.init (ctrlerHost .increasing)) (Stack.elect 0 ++
      Stack.replicated 0 firstJoin)).history = [.call (1, 0) firstJoin] := by decide +kernel
  refine ctrler_applier_never_stuck (reach_reached _) (fun i op hcall => ?_) 0
    (.command (some firstJoin) 1 1) (by decide +kernel)
  have hcall' : .call i op ∈ (after (.init (ctrlerHost .increasing)) (Stack.elect 0 ++
      Stack.replicated 0 firstJoin)).history := hcall
  rw [hhistory, List.mem_singleton] at hcall'
  cases hcall'
  trivial

end DistLabs.Shardctrler
