import DistLabs.Lib.Answers
import DistLabs.Shardctrler.Orders

/-!
# What `Query` returns

The handlers of `shardctrler/server.go` are those of a service behind wait channels (`ctrler`). All
of them answer at once if the request is known, and `Query` then replies with the zero `Config`; so
does a second copy of a `Query` in the log. A clerk whose first attempt was executed, and that gets
the reply to another one, is told that there are no groups (`lostReply_zero`).

If the reply is not one of the duplicate filter, it is the config that the history had when the
operation was executed, which is after the call and before the return (`query_returns_config`).
-/

namespace DistLabs.Shardctrler

open Lib

/-! ## The handlers and the clerks -/

/-- The `Config` of the reply when a handler gets `configure` from its channel. Only `Query` has
one. -/
def replyConfig (op : Op) (configure : Config) : Config := if op.isQuery then configure else .zero

/-- `shardctrler` as a service. All four handlers begin with the check for old requests and set
nothing but `reply.Err` there. -/
def ctrler : Machine ShardCtrler Op Config Config where
  init := .init
  execute sc op := sc.execute .increasing op
  known sc op := if sc.isInvalidRequest op.clientId op.requestId then some .zero else none
  reply := replyConfig
  clientId := Op.clientId
  requestId := Op.requestId

/-- The service of the controller. -/
abbrev CtrlerService := Service ShardCtrler Op Config Config

/-- Every replica may visit maps in its own order. -/
theorem ctrler_execute (o : Orders) (sc : ShardCtrler) (op : Op) :
    ctrler.execute sc op = sc.execute o op :=
  sc.execute_orders .increasing o op

/-! ## Replies of the duplicate filter -/

/-- The config that `Query(num)` is to return: `configs[num]`, or the latest one. -/
def ShardCtrler.QueryResult (sc : ShardCtrler) (num : Int) (config : Config) : Prop :=
  (0 ≤ num → num < sc.configs.length → sc.configs[num.toNat]? = some config) ∧
    (num = -1 ∨ sc.configs.length ≤ num → sc.configs.getLast? = some config)

instance (sc : ShardCtrler) (num : Int) (config : Config) :
    Decidable (sc.QueryResult num config) :=
  inferInstanceAs (Decidable ((_ → _ → _) ∧ (_ → _)))

/-- The reply comes from an entry of the log that was not skipped as a duplicate. -/
def Performed (log : List (ServiceEntry Op)) (op : Op) : ReplySource → Prop
  | .known _ => False
  | .logged p => ∀ sc ∈ ctrler.stateAt log p, ¬ sc.isInvalidRequest op.clientId op.requestId

instance (log : List (ServiceEntry Op)) (op : Op) : DecidablePred (Performed log op)
  | .known _ => isFalse id
  | .logged _ => inferInstanceAs (Decidable (∀ _ ∈ _, _))

/-- No `Query` returns with a reply of the duplicate filter. -/
def Unfiltered (net : CtrlerService) : ServiceAction Op → Prop
  | .ret j => ∀ rep ∈ net.replies[j]?, ∀ op ∈ (net.clerks rep.id.1).pending,
      op.isQuery → Performed net.log op rep.source
  | _ => True

instance (net : CtrlerService) (a : ServiceAction Op) : Decidable (Unfiltered net a) :=
  match a with
  | .ret _ => inferInstanceAs (Decidable (∀ _ ∈ _, ∀ _ ∈ _, _ → _))
  | .call _ | .request .. | .check _ | .start .. | .slot _ | .receive _ | .timeout _ | .confirm _
  | .finish _ | .raft .. | .commit _ | .apply _ | .install .. => isTrue trivial

/-! ## The config of the history -/

/-- A query that is not a duplicate is answered from the history. -/
theorem execute_query {sc sc' : ShardCtrler} {op : Op} {num : Int} {config : Config}
    (hop : op.request = .query num) (hnew : ¬ sc.isInvalidRequest op.clientId op.requestId)
    (hexec : ctrler.execute sc op = some (sc', config)) : sc.processQuery num = some config := by
  rw [ctrler_execute .increasing, ShardCtrler.execute, if_neg hnew, hop] at hexec
  simp only [Option.bind_eq_bind, Option.bind_eq_some_iff, Option.map_eq_some_iff] at hexec
  obtain ⟨_, ⟨config', hquery, rfl⟩, heq⟩ := hexec
  cases heq
  exact hquery

/-- `processQuery` returns what a query is to return. -/
theorem processQuery_result {sc : ShardCtrler} {num : Int} {config : Config}
    (h : sc.processQuery num = some config) : sc.QueryResult num config := by
  unfold ShardCtrler.processQuery at h
  split at h
  · next hlast =>
    exact ⟨fun h0 hlt => by omega, fun _ => h⟩
  · next hlast =>
    split at h
    · cases h
    · exact ⟨fun _ _ => h, fun hl => absurd hl hlast⟩

/-- A call has got a reply, and a `Query` has got one that is not of the duplicate filter. -/
def Explained (net : CtrlerService) (i : Int × Int) (config : Config) (t : Nat) : Prop :=
  ∃ op t₀ source, (.call i op, t₀) ∈ net.history ∧
    Service.Answer ctrler net.log op config source t ∧
    (op.isQuery → Performed net.log op source)

/-- An explanation of a result stays one when the log grows. -/
theorem Explained.mono {net net' : CtrlerService} (hgrow : Service.Grows net net') {i : Int × Int}
    {config : Config} {t : Nat} (ht : t ≤ net.log.length) (h : Explained net i config t) :
    Explained net' i config t := by
  obtain ⟨op, t₀, source, hcall, hans, hperf⟩ := h
  refine ⟨op, t₀, source, hgrow.history hcall, hans.mono hgrow.log ht le_rfl, fun hq => ?_⟩
  cases hans with
  | known => exact (hperf hq).elim
  | logged hp =>
    intro sc hsc
    rw [Service.stateAt_grown hgrow.log (hp.le.trans ht)] at hsc
    exact hperf hq sc hsc

/-- A call returns with a reply to it. -/
theorem explained_step {net net' : CtrlerService} {a : ServiceAction Op}
    (hinv : Service.Inv ctrler net)
    (h : ∀ i config t, (.ret i config, t) ∈ net.history → Explained net i config t)
    (hok : Unfiltered net a) (hst : Service.Steps ctrler net a net') (i : Int × Int)
    (config : Config) (t : Nat) (hret : (.ret i config, t) ∈ net'.history) :
    Explained net' i config t := by
  have hgrow := Service.grows_step hst
  have hold : (.ret i config, t) ∈ net.history → Explained net' i config t :=
    fun hret => (h i config t hret).mono hgrow (hinv.clients.time_le _ hret)
  cases hst with
  | call => exact hold (Service.ret_mem_record_call.1 hret)
  | ret hrep hop hid =>
    rcases Service.ret_mem_record_ret.1 hret with hret | ⟨rfl, rfl, rfl⟩
    · exact hold hret
    -- the reply is to the operation that its clerk waits for
    obtain ⟨op, hop_id, ⟨t₀, hcall⟩, hans⟩ := hinv.replies _ (List.mem_of_getElem? hrep)
    obtain ⟨t₁, hcall'⟩ := (hinv.clients.pending _ _ hop).2
    rw [hop_id] at hcall
    rw [← hid] at hcall'
    obtain ⟨rfl, -⟩ := hinv.clients.call_unique _ _ _ _ _ hcall hcall'
    exact ⟨op, t₀, _, Service.call_mem_record_ret.2 hcall, hans, hok _ hrep _ hop⟩
  | _ => exact hold hret

/-- In every reachable state of such a run every result is explained. -/
theorem explained_reach {net : CtrlerService}
    (hreach : Reach (Service.step ctrler) Unfiltered (.init ctrler) net) :
    Service.Inv ctrler net ∧
      ∀ i config t, (.ret i config, t) ∈ net.history → Explained net i config t := by
  refine Reach.invariant (P := fun net => Service.Inv ctrler net ∧
    ∀ i config t, (.ret i config, t) ∈ net.history → Explained net i config t)
    ⟨Service.inv_init, fun i config t h => by cases h⟩ (fun hs hok hst => ?_) hreach
  exact ⟨hs.1.step (Service.step_cases hst), explained_step hs.1 hs.2 hok (Service.step_cases hst)⟩

/-- In a run in which no `Query` returns with a reply of the duplicate filter, every `Query`
returns what the history of configs had at some moment between the call and the return. -/
theorem query_returns_config {net : CtrlerService}
    (hreach : Reach (Service.step ctrler) Unfiltered (.init ctrler) net) {i : Int × Int}
    {c r num : Int} {t₀ t : Nat} {config : Config}
    (hcall : (.call i ⟨c, r, .query num⟩, t₀) ∈ net.history)
    (hret : (.ret i config, t) ∈ net.history) :
    ∃ n sc, t₀ ≤ n ∧ n ≤ t ∧ ctrler.stateAt net.log n = some sc ∧ sc.QueryResult num config := by
  obtain ⟨hinv, hexpl⟩ := explained_reach hreach
  obtain ⟨op, t₁, source, hcall', hans, hperf⟩ := hexpl i config t hret
  obtain ⟨rfl, rfl⟩ := hinv.clients.call_unique _ _ _ _ _ hcall' hcall
  cases hans with
  | known => exact (hperf rfl).elim
  | logged hp hlog hstore hexec =>
    obtain ⟨t₂, ht, hcall''⟩ := hinv.logged _ _ hlog
    obtain ⟨hid, -⟩ := hinv.clients.call _ _ _ hcall
    rw [← hid] at hcall''
    obtain ⟨-, rfl⟩ := hinv.clients.call_unique _ _ _ _ _ hcall hcall''
    have hquery := execute_query rfl (hperf rfl _ hstore) hexec
    exact ⟨_, _, ht, hp.le, hstore, processQuery_result hquery⟩

/-! ## Runs -/

/-- The first group joins. -/
def firstJoin : Op := ⟨1, 0, .join ((∅ : GoMap Gid (List String)).insert 1 ["a"])⟩

/-- Another clerk asks for the latest config. -/
def latest : Op := ⟨2, 0, .query (-1)⟩

/-- A group joins, and a clerk asks for the latest config. -/
def joinAndQuery : CtrlerService :=
  reached (Service.step ctrler) Unfiltered (.init ctrler)
    ([.raft 0 1 true] ++ Service.viaLog 0 firstJoin ++ Service.viaLog 1 latest)

/-- The clerk gets the config that the group has joined. -/
theorem joinAndQuery_returns : (.call (2, 0) latest, 1) ∈ joinAndQuery.history ∧
    ∃ config : Config, config.num = 1 ∧ (.ret (2, 0) config, 2) ∈ joinAndQuery.history ∧
      ∃ n sc, 1 ≤ n ∧ n ≤ 2 ∧ ctrler.stateAt joinAndQuery.log n = some sc ∧
        sc.QueryResult (-1) config := by
  have hcall : (.call (2, 0) latest, 1) ∈ joinAndQuery.history := by decide +kernel
  have hany : joinAndQuery.history.any (fun
      | (.ret i config, t) => i = (2, 0) ∧ t = 2 ∧ config.num = 1
      | _ => false) = true := by decide +kernel
  obtain ⟨⟨e, t⟩, hret, he⟩ := List.any_eq_true.1 hany
  cases e with
  | call => cases he
  | ret i config =>
    obtain ⟨rfl, rfl, hnum⟩ := of_decide_eq_true he
    exact ⟨hcall, config, hnum, hret, query_returns_config (reach_reached _) hcall hret⟩

/-- The same, but the reply to the query is lost, and the clerk asks again. -/
def lostReply : CtrlerService :=
  reached (Service.step ctrler) Always (.init ctrler)
    ([.raft 0 1 true] ++ Service.viaLog 0 firstJoin ++ (Service.viaLog 1 latest).dropLast ++
      [.request 2 0 latest, .check 2, .ret 2])

/-- The clerk is told that there are no groups, at a time when the latest config has one. -/
theorem lostReply_zero : Reach (Service.step ctrler) Always (.init ctrler) lostReply ∧
    (.call (2, 0) latest, 1) ∈ lostReply.history ∧ (.ret (2, 0) .zero, 2) ∈ lostReply.history ∧
    ∀ n sc, 1 ≤ n → n ≤ 2 → ctrler.stateAt lostReply.log n = some sc →
      ¬ sc.QueryResult (-1) .zero := by
  have hzero : ∀ n ∈ [1, 2], ∀ sc ∈ ctrler.stateAt lostReply.log n,
      ¬ sc.QueryResult (-1) .zero := by
    decide +kernel
  refine ⟨reach_reached _, by decide +kernel, by decide +kernel, fun n sc hle hle' hsc => ?_⟩
  refine hzero n ?_ sc hsc
  simp only [List.mem_cons, List.not_mem_nil, or_false]
  omega

end DistLabs.Shardctrler
