import DistLabs.Shardkv.Handoff

/-!
# Each request takes effect once

The table of requests is that of a group, and shards move one by one; with a shard goes a copy of
the table of the group that gives it away. A group that has executed a `Put` or `Append`, or has
received the shard from a group that had executed it, knows of the request ever after
(`System.Knows.requests`), so it does not execute it again.

A request that is answered as a duplicate has taken effect. This rests on the clerks (`Service`): a
clerk has one request at a time, numbers its requests one after the other, and repeats a request
until it is answered with `OK`. So no table has a number that a clerk has not used, and when a
clerk uses a number all its earlier requests have taken effect (`Service.Inv`).
-/

namespace DistLabs.Shardkv

open Lib Shardctrler

section
variable {sys sys' : System} {g g₁ g₂ : Gid} {k q n : Nat} {i : Fin NShards} {c r : Int}

/-! ## Effects -/

/-- A `Put` or `Append` takes effect as command number `q` of the log of group `g`. -/
structure System.Executes (sys : System) (g : Gid) (q : Nat) (op : GetPutAppendArgs) : Prop where
  log : (sys.groups g).log[q]? = some (.getPutAppend op)
  write : op.opType ≠ .get
  serves : (sys.server g q).checkShardAndState (key2shard op.key)
  fresh : ¬ (sys.server g q).isInvalidRequest op.clientId op.requestId

/-- The replicas of group `g` from number `k` on have the effect of request `r` of client `c` on
shard `i`: it took effect there, or the group installed the shard from a group that had it when it
gave the shard away. -/
inductive System.Knows (sys : System) (c r : Int) (i : Fin NShards) : Gid → Nat → Prop
  | effect {g : Gid} {q : Nat} {op : GetPutAppendArgs} (h : sys.Executes g q op)
      (hc : op.clientId = c) (hr : op.requestId = r) (hi : key2shard op.key = i) :
      sys.Knows c r i g (q + 1)
  | received {g₁ g₂ : Gid} {k p q n : Nat} {shard : Shard} (h : sys.Knows c r i g₁ k)
      (ha : sys.Adopts g₁ n p) (hk : k ≤ p) (hins : sys.Installs g₂ n i q shard)
      (hlast : (sys.server g₂ q).lastConfig.shards i = g₁) : sys.Knows c r i g₂ (q + 1)

/-- What was executed stays executed. -/
theorem System.Executes.mono (hgrow : Grows sys sys') {op : GetPutAppendArgs}
    (h : sys.Executes g q op) : sys'.Executes g q op := by
  have hlt := (List.getElem?_eq_some_iff.1 h.log).1
  have hserver := hgrow.server hlt.le
  exact ⟨hgrow.log_getElem? h.log, h.write, by rw [hserver]; exact h.serves,
    by rw [hserver]; exact h.fresh⟩

/-- A group that has the effect of a request knows its number. -/
theorem System.Knows.requests (ho : Origin sys) (h : sys.Knows c r i g k) (hq : k ≤ q) :
    ∃ r' ∈ (sys.server g q).lastRequestMap[c]?, r ≤ r' := by
  induction h generalizing q with
  | @effect g p op hex hc hr hi =>
    subst hc hr
    have htable : (sys.server g (p + 1)).lastRequestMap =
        enterRequest (sys.server g p).lastRequestMap op.clientId op.requestId := by
      rw [server_succ hex.log]
      exact (processGetPutAppend_requests ..).trans (if_pos ⟨hex.serves, .inr hex.fresh⟩)
    obtain ⟨r', hr', hle⟩ :=
      enterRequest_known (sys.server g p).lastRequestMap op.clientId op.requestId
    rw [← htable] at hr'
    obtain ⟨r'', hr'', hle'⟩ := requestsLe_server hq op.clientId r' hr'
    exact ⟨r'', hr'', hle.trans hle'⟩
  | @received g₁ g₂ k p p' n shard _ ha hk hins hlast ih =>
    obtain ⟨response, hlog, hn, hi, hnum, -, -⟩ := hins
    obtain ⟨p₀, ha₀, -, hreq⟩ := ho.inserted (ho.log g₂ _ (List.mem_of_getElem? hlog)) hi
      (hn.trans hnum.symm) hlast
    rw [hn] at ha₀
    obtain rfl := ha.unique ha₀
    -- from the giver's table over the response to the receiver's, which only grows
    obtain ⟨r₁, hr₁, hle₁⟩ := ih (show k ≤ p + 1 by omega)
    obtain ⟨r₂, hr₂, hle₂⟩ := hreq c r₁ hr₁
    obtain ⟨r₃, hr₃, hle₃⟩ := insertShard_requests (hn.trans hnum.symm) c r₂ hr₂
    obtain ⟨r₄, hr₄, hle₄⟩ := requestsLe_server hq c r₃ (by rw [server_succ hlog]; exact hr₃)
    exact ⟨r₄, hr₄, hle₁.trans (hle₂.trans (hle₃.trans hle₄))⟩

/-- A property of all requests of two tables holds of the merged table. -/
theorem mergeRequests_mem {P : Int → Int → Prop} (hpos : ∀ c r, P c r → 0 ≤ r)
    {l : List (Int × Int)} (hl : ∀ e ∈ l, P e.1 e.2) {m : GoMap Int Int}
    (hm : ∀ c r : Int, m[c]? = some r → P c r) (hr : (mergeRequests m l)[c]? = some r) :
    P c r := by
  induction l generalizing m with
  | nil => exact hm c r hr
  | cons e l ih =>
    refine ih (fun e' he' => hl e' (List.mem_cons_of_mem _ he')) (fun c r hr => ?_) hr
    rw [GoMap.getElem?_insert] at hr
    split at hr
    swap
    · exact hm c r hr
    next hc =>
    subst hc
    have he := hl e (List.mem_cons_self ..)
    have hval := Option.some.inj hr
    rcases max_cases e.2 (m[e.1]?.getD 0) with ⟨hmax, -⟩ | ⟨hmax, hlt⟩
    · rw [← hval, hmax]
      exact he
    · rw [hmax] at hval
      cases hme : m[e.1]? with
      | none =>
        rw [hme] at hlt
        exact absurd (hpos _ _ he) (not_le.2 hlt)
      | some r' =>
        rw [hme] at hval
        rw [← hval]
        exact hm _ _ hme

/-- What a table has after a command it had before, or got from a request or from another group. -/
theorem apply_requests_mem {P : Int → Int → Prop} (hpos : ∀ c r, P c r → 0 ≤ r) {kv : ShardKV}
    {command : Command} (hm : ∀ c r : Int, kv.lastRequestMap[c]? = some r → P c r)
    (hop : ∀ op, command = .getPutAppend op → kv.checkShardAndState (key2shard op.key) →
      op.opType = .get ∨ ¬ kv.isInvalidRequest op.clientId op.requestId →
      P op.clientId op.requestId)
    (hins : ∀ response, command = .insertShard response →
      ∀ c r : Int, response.lastRequestMap[c]? = some r → P c r)
    (hr : (kv.apply command).lastRequestMap[c]? = some r) : P c r := by
  cases command with
  | getPutAppend op =>
    change (kv.processGetPutAppend op).1.lastRequestMap[c]? = some r at hr
    rw [processGetPutAppend_requests] at hr
    split at hr
    swap
    · exact hm c r hr
    next htaken =>
    rcases mem_enterRequest hr with hold | ⟨rfl, rfl⟩
    · exact hm c r hold
    · exact hop op rfl htaken.1 htaken.2
  | addConfig newConfig =>
    change (kv.processAddConfig newConfig).1.lastRequestMap[c]? = some r at hr
    unfold ShardKV.processAddConfig at hr
    split at hr <;> exact hm c r hr
  | insertShard response =>
    change (kv.processInsertShard response).1.lastRequestMap[c]? = some r at hr
    unfold ShardKV.processInsertShard at hr
    split at hr
    · refine mergeRequests_mem hpos (fun e he => hins response rfl e.1 e.2 ?_) hm hr
      exact Std.ExtTreeMap.mem_toList_iff_getElem?_eq_some.1 he
    · exact hm c r hr
  | deleteShard args =>
    change (kv.processDeleteShard args).1.lastRequestMap[c]? = some r at hr
    unfold ShardKV.processDeleteShard at hr
    split at hr <;> exact hm c r hr
  | adjustShardState args =>
    change (kv.processAdjustGCingShard args).1.lastRequestMap[c]? = some r at hr
    unfold ShardKV.processAdjustGCingShard at hr
    split at hr <;> exact hm c r hr

/-- The table of an `InsertShard` command is that of a replica of some group. -/
theorem insert_requests {response : PullShardReply} (hs : sys.Starts g (.insertShard response)) :
    ∃ g₁ k, response.lastRequestMap = (sys.server g₁ k).lastRequestMap := by
  cases hs with
  | client hc => cases clientCommand_eq hc
  | @insert _ oldGid k k' ids reply hids hreply hok =>
    subst hreply
    exact ⟨oldGid, k', (getShards_ok hok).requests⟩

end

/-! ## Clerks -/

/-- The fields of `Clerk` that number its requests, and the request it is waiting for. -/
structure Clerk where
  requestId : Int
  pending : Option GetPutAppendArgs

/-- The system with the clerks, by their ids, and all requests that they have sent. A request may
reach a server at any time after it was sent, also when the clerk has gone on. -/
structure Service where
  sys : System
  clerks : Int → Clerk
  issued : List GetPutAppendArgs

/-- A `PutAppend` handler answers `OK` at once: the request is known already. -/
def ShardKV.AnswersDuplicate (kv : ShardKV) (args : GetPutAppendArgs) : Prop :=
  args.opType ≠ .get ∧ kv.checkShardAndState (key2shard args.key) ∧
    kv.isInvalidRequest args.clientId args.requestId

instance (kv : ShardKV) (args : GetPutAppendArgs) : Decidable (kv.AnswersDuplicate args) :=
  inferInstanceAs (Decidable (_ ∧ _))

namespace Service

/-- What clerks and the system do. -/
inductive Event where
  /-- `Get` or `PutAppend` of a clerk that is not waiting. -/
  | call (clientId : Int) (key value : GoString) (opType : OpType)
  /-- A step of the system. -/
  | act (a : Action)
  /-- The clerk gets the answer that a handler gave at once. -/
  | duplicate (clientId : Int) (g : Gid) (k : Nat)
  /-- The clerk gets the answer to its request that is number `j` in the log of group `g`. -/
  | reply (clientId : Int) (g : Gid) (j : Nat)

/-- Nobody has called anything. -/
def init : Service where
  sys := .init
  clerks := fun _ => ⟨0, none⟩
  issued := []

variable (sv : Service)

/-- Client commands are requests of clerks. -/
def Sends : Action → Prop
  | .client _ _ args => args ∈ sv.issued
  | _ => True

instance : (a : Action) → Decidable (sv.Sends a)
  | .client _ _ args => inferInstanceAs (Decidable (args ∈ sv.issued))
  | .ctrler .. | .requestConfig .. | .insert .. | .delete .. | .adjust .. | .commit .. =>
    isTrue trivial

/-- A clerk sends its next request. -/
def called (args : GetPutAppendArgs) : Service :=
  { sv with
    clerks := Function.update sv.clerks args.clientId ⟨args.requestId, some args⟩
    issued := sv.issued ++ [args] }

/-- A clerk gets `OK` and goes on. -/
def answered (clientId : Int) : Service :=
  { sv with
    clerks := Function.update sv.clerks clientId ⟨(sv.clerks clientId).requestId + 1, none⟩ }

/-- The command of the request is number `j` in the log, and is answered with `OK`. -/
def Replied (args : GetPutAppendArgs) (g : Gid) (j : Nat) : Prop :=
  (sv.sys.groups g).log[j]? = some (.getPutAppend args) ∧
    ((sv.sys.server g j).execute (.getPutAppend args)).2.err = .ok

instance (args : GetPutAppendArgs) (g : Gid) (j : Nat) : Decidable (sv.Replied args g j) :=
  inferInstanceAs (Decidable (_ ∧ _))

/-- The steps of the system with its clerks. -/
def step : Event → Option Service
  | .call clientId key value opType =>
    if (sv.clerks clientId).pending = none then
      some (sv.called ⟨key, value, opType, (sv.clerks clientId).requestId, clientId⟩)
    else none
  | .act a => if sv.Sends a then (sv.sys.step a).map fun sys => { sv with sys } else none
  | .duplicate clientId g k => do
    let args ← (sv.clerks clientId).pending
    if (sv.sys.server g k).AnswersDuplicate args then some (sv.answered clientId) else none
  | .reply clientId g j => do
    let args ← (sv.clerks clientId).pending
    if sv.Replied args g j then some (sv.answered clientId) else none

/-! ## What holds of clerks and tables -/

/-- What holds of the clerks, the commands and the tables of requests. -/
structure Inv : Prop where
  /-- Clerks count from 0. -/
  nonneg : ∀ c, 0 ≤ (sv.clerks c).requestId
  /-- A clerk waits for a request with its current number. -/
  pending : ∀ c, ∀ args ∈ (sv.clerks c).pending,
    args ∈ sv.issued ∧ args.clientId = c ∧ args.requestId = (sv.clerks c).requestId
  /-- Numbers of requests that are not waited for have been used up. -/
  issued : ∀ args ∈ sv.issued, 0 ≤ args.requestId ∧
    (args.requestId < (sv.clerks args.clientId).requestId ∨
      (sv.clerks args.clientId).pending = some args)
  /-- A clerk uses a number once. -/
  unique : ∀ args ∈ sv.issued, ∀ args' ∈ sv.issued, args.clientId = args'.clientId →
    args.requestId = args'.requestId → args = args'
  /-- Client commands come from clerks. -/
  command : ∀ g op, .getPutAppend op ∈ (sv.sys.groups g).log ∨
    .getPutAppend op ∈ (sv.sys.groups g).started → op ∈ sv.issued
  /-- A number in a table is that of a request that was executed. -/
  table : ∀ g k (c r : Int), (sv.sys.server g k).lastRequestMap[c]? = some r →
    ∃ op ∈ sv.issued, op.clientId = c ∧ op.requestId = r ∧
      (op.opType ≠ .get → ∃ g' q, sv.sys.Executes g' q op)
  /-- When a clerk has gone on, its request has taken effect. -/
  done : ∀ args ∈ sv.issued, args.requestId < (sv.clerks args.clientId).requestId →
    args.opType ≠ .get → ∃ g q, sv.sys.Executes g q args

variable {sv} {sv' : Service}

/-- A write that a table knows has taken effect. -/
theorem Inv.executed (h : sv.Inv) {args : GetPutAppendArgs} (hargs : args ∈ sv.issued)
    (hwrite : args.opType ≠ .get) {g : Gid} {k : Nat}
    (hinv : (sv.sys.server g k).isInvalidRequest args.clientId args.requestId) :
    ∃ g' q, sv.sys.Executes g' q args := by
  obtain ⟨r, hr, hle⟩ := hinv
  obtain ⟨op, hop, hc, rfl, hex⟩ := h.table g k _ r hr
  rcases (h.issued args hargs).2 with hlt | hpend
  · exact h.done args hargs hlt hwrite
  -- the clerk still waits for the request, so the table cannot have a later one
  have hnum := (h.pending _ args hpend).2.2
  have hop' : op.requestId ≤ (sv.clerks args.clientId).requestId := by
    rcases (h.issued op hop).2 with hlt | hpend'
    · rw [hc] at hlt
      exact hlt.le
    · rw [(h.pending _ op hpend').2.2, hc]
  obtain rfl := h.unique op hop args hargs hc (by omega)
  exact hex hwrite

/-- The cases of a step. -/
theorem step_cases {e : Event} (hst : sv.step e = some sv') :
    (∃ args, (sv.clerks args.clientId).pending = none ∧
      args.requestId = (sv.clerks args.clientId).requestId ∧ sv' = sv.called args) ∨
    (∃ a sys', sv.Sends a ∧ sv.sys.step a = some sys' ∧ sv' = { sv with sys := sys' }) ∨
    ∃ c args, (sv.clerks c).pending = some args ∧
      ((∃ g k, (sv.sys.server g k).AnswersDuplicate args) ∨ ∃ g j, sv.Replied args g j) ∧
      sv' = sv.answered c := by
  cases e with
  | call c key value opType =>
    simp only [step] at hst
    split at hst
    · next hnone =>
      cases hst
      exact .inl ⟨_, hnone, rfl, rfl⟩
    · cases hst
  | act a =>
    simp only [step] at hst
    split at hst
    · next hsends =>
      obtain ⟨sys', hsys', rfl⟩ := Option.map_eq_some_iff.1 hst
      exact .inr (.inl ⟨a, sys', hsends, hsys', rfl⟩)
    · cases hst
  | duplicate c g k =>
    simp only [step, Option.bind_eq_bind, Option.bind_eq_some_iff] at hst
    obtain ⟨args, hargs, hst⟩ := hst
    split at hst
    · next hdup =>
      cases hst
      exact .inr (.inr ⟨c, args, hargs, .inl ⟨g, k, hdup⟩, rfl⟩)
    · cases hst
  | reply c g j =>
    simp only [step, Option.bind_eq_bind, Option.bind_eq_some_iff] at hst
    obtain ⟨args, hargs, hst⟩ := hst
    split at hst
    · next hrep =>
      cases hst
      exact .inr (.inr ⟨c, args, hargs, .inr ⟨g, j, hrep⟩, rfl⟩)
    · cases hst

theorem inv_init : init.Inv := by
  refine ⟨fun _ => le_rfl, ?_, ?_, ?_, ?_, ?_, ?_⟩
  · intro c args hargs
    cases hargs
  · intro args hargs
    cases hargs
  · intro args hargs
    cases hargs
  · rintro g op (hop | hop) <;> cases hop
  · intro g k c r hr
    obtain ⟨k', hk', heq⟩ := exists_server System.init g k
    obtain rfl : k' = 0 := Nat.le_zero.1 hk'
    change (System.init.server g k).lastRequestMap[c]? = some r at hr
    rw [← heq] at hr
    change (∅ : GoMap Int Int)[c]? = some r at hr
    rw [Std.ExtTreeMap.getElem?_empty] at hr
    cases hr
  · intro args hargs
    cases hargs

/-- A clerk sends its next request. -/
theorem Inv.called (h : sv.Inv) {args : GetPutAppendArgs}
    (hnone : (sv.clerks args.clientId).pending = none)
    (hnum : args.requestId = (sv.clerks args.clientId).requestId) : (sv.called args).Inv := by
  have hold : ∀ args' ∈ sv.issued, args'.clientId = args.clientId →
      args'.requestId < args.requestId := by
    intro args' hargs' hc
    rcases (h.issued args' hargs').2 with hlt | hpend
    · rw [hnum, ← hc]
      exact hlt
    · rw [hc, hnone] at hpend
      cases hpend
  refine ⟨?_, ?_, ?_, ?_, ?_, ?_, ?_⟩
  all_goals simp only [Service.called]
  · intro c
    by_cases hc : c = args.clientId
    · subst hc
      rw [Function.update_self, hnum]
      exact h.nonneg _
    · rw [Function.update_of_ne hc]
      exact h.nonneg c
  · intro c args' hargs'
    by_cases hc : c = args.clientId
    · subst hc
      rw [Function.update_self] at hargs' ⊢
      cases hargs'
      exact ⟨List.mem_append_right _ (List.mem_singleton_self _), rfl, rfl⟩
    · rw [Function.update_of_ne hc] at hargs' ⊢
      obtain ⟨hmem, hrest⟩ := h.pending c args' hargs'
      exact ⟨List.mem_append_left _ hmem, hrest⟩
  · intro args' hargs'
    rcases List.mem_append.1 hargs' with hmem | hmem
    · refine ⟨(h.issued args' hmem).1, ?_⟩
      by_cases hc : args'.clientId = args.clientId
      · rw [hc, Function.update_self]
        exact .inl (hold args' hmem hc)
      · rw [Function.update_of_ne hc]
        exact (h.issued args' hmem).2
    · obtain rfl := List.mem_singleton.1 hmem
      rw [Function.update_self]
      exact ⟨by rw [hnum]; exact h.nonneg _, .inr rfl⟩
  · intro args₁ hargs₁ args₂ hargs₂ hc hr
    rcases List.mem_append.1 hargs₁ with h₁ | h₁ <;> rcases List.mem_append.1 hargs₂ with h₂ | h₂
    · exact h.unique args₁ h₁ args₂ h₂ hc hr
    · obtain rfl := List.mem_singleton.1 h₂
      exact absurd hr (hold args₁ h₁ hc).ne
    · obtain rfl := List.mem_singleton.1 h₁
      exact absurd hr (hold args₂ h₂ hc.symm).ne'
    · rw [List.mem_singleton.1 h₁, List.mem_singleton.1 h₂]
  · intro g op hop
    exact List.mem_append_left _ (h.command g op hop)
  · intro g k c r hr
    obtain ⟨op, hop, hrest⟩ := h.table g k c r hr
    exact ⟨op, List.mem_append_left _ hop, hrest⟩
  · intro args' hargs' hlt hwrite
    rcases List.mem_append.1 hargs' with hmem | hmem
    · by_cases hc : args'.clientId = args.clientId
      · refine h.done args' hmem ?_ hwrite
        rw [hc, ← hnum]
        exact hold args' hmem hc
      · rw [Function.update_of_ne hc] at hlt
        exact h.done args' hmem hlt hwrite
    · obtain rfl := List.mem_singleton.1 hmem
      rw [Function.update_self] at hlt
      exact absurd hlt (lt_irrefl _)

/-- A write that is answered has taken effect. -/
theorem Inv.effect_of_answer (h : sv.Inv) {args : GetPutAppendArgs} (hargs : args ∈ sv.issued)
    (hwrite : args.opType ≠ .get)
    (hans : (∃ g k, (sv.sys.server g k).AnswersDuplicate args) ∨ ∃ g j, sv.Replied args g j) :
    ∃ g q, sv.sys.Executes g q args := by
  rcases hans with ⟨g, k, -, -, hinv⟩ | ⟨g, j, hlog, hok⟩
  · exact h.executed hargs hwrite hinv
  by_cases hinv : (sv.sys.server g j).isInvalidRequest args.clientId args.requestId
  · exact h.executed hargs hwrite hinv
  refine ⟨g, j, hlog, hwrite, ?_, hinv⟩
  by_contra hserves
  simp only [ShardKV.execute, ShardKV.processGetPutAppend, hserves, not_false_eq_true,
    if_true] at hok
  cases hok

/-- A clerk gets its answer. -/
theorem Inv.answered (h : sv.Inv) {c : Int} {args : GetPutAppendArgs}
    (hpend : (sv.clerks c).pending = some args)
    (hans : (∃ g k, (sv.sys.server g k).AnswersDuplicate args) ∨ ∃ g j, sv.Replied args g j) :
    (sv.answered c).Inv := by
  obtain ⟨hargs, rfl, hnum⟩ := h.pending c args hpend
  refine ⟨?_, ?_, ?_, h.unique, h.command, h.table, ?_⟩
  all_goals simp only [Service.answered]
  · intro c
    have h0 := h.nonneg c
    by_cases hc : c = args.clientId
    · subst hc
      rw [Function.update_self]
      exact h0.trans (Int.le_add_one le_rfl)
    · rwa [Function.update_of_ne hc]
  · intro c args' hargs'
    by_cases hc : c = args.clientId
    · subst hc
      rw [Function.update_self] at hargs'
      cases hargs'
    · rw [Function.update_of_ne hc] at hargs' ⊢
      exact h.pending c args' hargs'
  · intro args' hargs'
    obtain ⟨h0, hcase⟩ := h.issued args' hargs'
    refine ⟨h0, ?_⟩
    by_cases hc : args'.clientId = args.clientId
    · rw [hc, Function.update_self]
      rw [hc] at hcase
      rcases hcase with hlt | hpend'
      · exact .inl (hlt.trans (Int.lt_succ _))
      · rw [hpend] at hpend'
        cases hpend'
        exact .inl (by rw [hnum]; exact Int.lt_succ _)
    · rwa [Function.update_of_ne hc]
  · intro args' hargs' hlt hwrite
    by_cases hc : args'.clientId = args.clientId
    · rcases (h.issued args' hargs').2 with hlt' | hpend'
      · exact h.done args' hargs' hlt' hwrite
      · rw [hc, hpend] at hpend'
        cases hpend'
        exact h.effect_of_answer hargs hwrite hans
    · rw [Function.update_of_ne hc] at hlt
      exact h.done args' hargs' hlt hwrite

/-- A step of the system. -/
theorem Inv.act (h : sv.Inv) (ho : Origin sv.sys) {a : Action} {sys' : System}
    (hsends : sv.Sends a)
    (hst : sv.sys.step a = some sys') : ({ sv with sys := sys' } : Service).Inv := by
  have hgrow := grows_step hst
  have hmono : ∀ {op}, (∃ g q, sv.sys.Executes g q op) → ∃ g q, sys'.Executes g q op := by
    rintro op ⟨g, q, hex⟩
    exact ⟨g, q, hex.mono hgrow⟩
  refine ⟨h.nonneg, h.pending, h.issued, h.unique, ?_, ?_, ?_⟩
  · intro g op hop
    rcases step_client hst hop with hold | ⟨k, rfl⟩
    · exact h.command g op hold
    · exact hsends
  · have hlift : ∀ g k (c r : Int), (sv.sys.server g k).lastRequestMap[c]? = some r →
        ∃ op ∈ sv.issued, op.clientId = c ∧ op.requestId = r ∧
          (op.opType ≠ .get → ∃ g' q, sys'.Executes g' q op) := by
      intro g k c r hr
      obtain ⟨op, hop, hc, hr, hex⟩ := h.table g k c r hr
      exact ⟨op, hop, hc, hr, fun hwrite => hmono (hex hwrite)⟩
    intro g k c r hr
    rcases step_server hst g k with heq | ⟨j, command, rfl, hc, heq⟩
    · change (sys'.server g k).lastRequestMap[c]? = some r at hr
      rw [heq] at hr
      exact hlift g k c r hr
    change (sys'.server g k).lastRequestMap[c]? = some r at hr
    rw [heq] at hr
    refine apply_requests_mem (P := fun c r => ∃ op ∈ sv.issued, op.clientId = c ∧
      op.requestId = r ∧ (op.opType ≠ .get → ∃ g' q, sys'.Executes g' q op)) ?_
        (hlift g _) ?_ ?_ hr
    · rintro c r ⟨op, hop, -, rfl, -⟩
      exact (h.issued op hop).1
    · rintro op rfl hserves hfresh
      refine ⟨op, h.command g op (.inr (List.mem_of_getElem? hc)), rfl, rfl, fun hwrite => ?_⟩
      refine ⟨g, (sv.sys.groups g).log.length, step_commit_log hst hc, hwrite, ?_, ?_⟩
      · rw [hgrow.server le_rfl]
        exact hserves
      · rw [hgrow.server le_rfl]
        exact hfresh.resolve_left hwrite
    · rintro response rfl c r hr
      obtain ⟨g₁, k₁, htable⟩ := insert_requests (ho.started g _ (List.mem_of_getElem? hc))
      rw [htable] at hr
      exact hlift g₁ k₁ c r hr
  · intro args hargs hlt hwrite
    exact hmono (h.done args hargs hlt hwrite)

/-- The system of a service is reached by its own steps. -/
theorem reach_sys (h : Reach Service.step Always init sv) :
    Reach System.step Always .init sv.sys := by
  induction h with
  | init => exact .init
  | step _ _ hst ih =>
    rcases step_cases hst with ⟨args, -, -, rfl⟩ | ⟨a, sys', -, hsys', rfl⟩ | ⟨c, args, -, -, rfl⟩
    · exact ih
    · exact ih.step trivial hsys'
    · exact ih

/-- The invariant holds in every reachable state. -/
theorem inv_reach (h : Reach Service.step Always init sv) : sv.Inv := by
  induction h with
  | init => exact inv_init
  | step hr _ hst ih =>
    rcases step_cases hst with ⟨args, hnone, hnum, rfl⟩ | ⟨a, sys', hsends, hsys', rfl⟩ |
      ⟨c, args, hpend, hans, rfl⟩
    · exact ih.called hnone hnum
    · exact ih.act (origin_reach (reach_sys hr)) hsends hsys'
    · exact ih.answered hpend hans

end Service

end DistLabs.Shardkv
