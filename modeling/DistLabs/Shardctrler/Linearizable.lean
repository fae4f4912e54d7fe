import DistLabs.Lib.FirstCopy
import DistLabs.Shardctrler.Query
import DistLabs.Shardctrler.Replay

/-!
# What the clerks of shardctrler see

A `Query` may return the zero `Config` of the duplicate filter. Apart from those calls, every
history of `Join`, `Leave`, `Move` and `Query` is linearizable (`linearizable_of_inv`): an
operation takes effect at its first copy in the log, which is the only one that is executed, and a
`Query` that returns anything else than the zero `Config` has got it there.
-/

namespace DistLabs.Shardctrler

open Lib Service

/-! ## The sequential controller -/

/-- A controller that executes every operation once: the new history, and the `Config` of the
reply. -/
def ctrlModel (configs : List Config) (op : Op) : List Config × Config :=
  match ShardCtrler.execute .increasing ⟨configs, ∅⟩ op with
  | some (sc, configure) => (sc.configs, replyConfig op configure)
  | none => (configs, .zero)

/-- With an empty table no request is a copy. -/
theorem not_isInvalidRequest_empty (configs : List Config) (c r : Int) :
    ¬ (ShardCtrler.mk configs ∅).isInvalidRequest c r := by
  rintro ⟨last, hlast, -⟩
  have hempty : (∅ : GoMap Int Int)[c]? = some last := hlast
  rw [Std.ExtTreeMap.getElem?_empty] at hempty
  cases hempty

/-- The controller without its table of requests. -/
def ShardCtrler.forget (sc : ShardCtrler) : ShardCtrler := ⟨sc.configs, ∅⟩

section
variable (sc : ShardCtrler) (o : Orders)

/-- Forgetting the requests leaves the configs alone. -/
@[simp] theorem forget_configs : sc.forget.configs = sc.configs := rfl

/-- `Join` does not look at the requests. -/
theorem processJoin_forget (servers : GoMap Gid (List String)) :
    sc.forget.processJoin o servers = (sc.processJoin o servers).map ShardCtrler.forget := by
  simp only [ShardCtrler.processJoin, forget_configs, Option.bind_eq_bind, Option.map_bind]
  refine congrArg (Option.bind _) (funext fun last => ?_)
  simp only [Function.comp_apply, Option.map_bind]
  rfl

/-- `Leave` does not look at the requests. -/
theorem processLeave_forget (gids : List Gid) :
    sc.forget.processLeave o gids = (sc.processLeave o gids).map ShardCtrler.forget := by
  simp only [ShardCtrler.processLeave, forget_configs, Option.bind_eq_bind, Option.map_bind]
  refine congrArg (Option.bind _) (funext fun last => ?_)
  simp only [Function.comp_apply, Option.map_bind]
  rfl

/-- `Move` does not look at the requests. -/
theorem processMove_forget (shard : Int) (gid : Gid) :
    sc.forget.processMove o shard gid = (sc.processMove o shard gid).map ShardCtrler.forget := by
  simp only [ShardCtrler.processMove, forget_configs, Option.bind_eq_bind, Option.map_bind]
  refine congrArg (Option.bind _) (funext fun last => ?_)
  simp only [Function.comp_apply]
  split <;> rfl

/-- `Query` does not look at the requests. -/
theorem processQuery_forget (num : Int) : sc.forget.processQuery num = sc.processQuery num := rfl

/-- The table of requests has no part in what an operation asks for. -/
theorem execute_forget {op : Op} (hnew : ¬ sc.isInvalidRequest op.clientId op.requestId) :
    (sc.forget.execute o op).map (fun p => (p.1.configs, p.2)) =
      (sc.execute o op).map fun p => (p.1.configs, p.2) := by
  have hempty : ¬ sc.forget.isInvalidRequest op.clientId op.requestId :=
    not_isInvalidRequest_empty sc.configs op.clientId op.requestId
  have hconfigs : ∀ sc' : ShardCtrler,
      (sc'.forget.updateLastRequest op).configs = (sc'.updateLastRequest op).configs := by
    intro sc'
    rw [updateLastRequest_configs, updateLastRequest_configs, forget_configs]
  unfold ShardCtrler.execute
  rw [if_neg hnew, if_neg hempty]
  cases op.request with
  | join servers =>
    simp only [processJoin_forget]
    cases sc.processJoin o servers with
    | none => rfl
    | some sc' => exact congrArg (fun configs => some (configs, Config.zero)) (hconfigs sc')
  | leave gids =>
    simp only [processLeave_forget]
    cases sc.processLeave o gids with
    | none => rfl
    | some sc' => exact congrArg (fun configs => some (configs, Config.zero)) (hconfigs sc')
  | move shard gid =>
    simp only [processMove_forget]
    cases sc.processMove o shard gid with
    | none => rfl
    | some sc' => exact congrArg (fun configs => some (configs, Config.zero)) (hconfigs sc')
  | query num =>
    simp only [processQuery_forget]
    cases sc.processQuery num with
    | none => rfl
    | some config => exact congrArg (fun configs => some (configs, config)) (hconfigs sc)

end

/-- The sequential controller does what an operation that is not known does. -/
theorem execute_new {sc sc' : ShardCtrler} {op : Op} {configure : Config}
    (hnew : ¬ sc.isInvalidRequest op.clientId op.requestId)
    (hexec : ctrler.execute sc op = some (sc', configure)) :
    ctrlModel sc.configs op = (sc'.configs, replyConfig op configure) := by
  have hforget := execute_forget sc .increasing hnew
  rw [show sc.execute .increasing op = _ from hexec, Option.map_some, Option.map_eq_some_iff]
    at hforget
  obtain ⟨⟨sc₁, configure₁⟩, hp, heq⟩ := hforget
  obtain ⟨hconfigs, rfl⟩ := Prod.mk.inj heq
  rw [ctrlModel, show (ShardCtrler.mk sc.configs ∅).execute .increasing op = _ from hp, ← hconfigs]

/-- An operation that is known changes nothing, and is answered with the zero `Config`. -/
theorem execute_known {sc sc' : ShardCtrler} {op : Op} {configure : Config}
    (hknown : sc.isInvalidRequest op.clientId op.requestId)
    (hexec : ctrler.execute sc op = some (sc', configure)) : sc' = sc ∧ configure = .zero := by
  have hexec' : sc.execute .increasing op = some (sc', configure) := hexec
  rw [ShardCtrler.execute, if_pos hknown] at hexec'
  cases hexec'
  exact ⟨rfl, rfl⟩

/-- Only `Query` has a `Config` in its reply, and changes nothing. -/
theorem execute_isQuery {sc sc' : ShardCtrler} {op : Op} {configure : Config} (hquery : op.isQuery)
    (hexec : ctrler.execute sc op = some (sc', configure)) : sc'.configs = sc.configs := by
  rcases execute_cases (show sc.execute .increasing op = _ from hexec) with
    ⟨-, heq⟩ | ⟨-, sc₁, heq, ⟨-, rfl⟩ | hproc⟩
  · exact congrArg _ heq
  · rw [show sc' = _ from heq, updateLastRequest_configs]
  · exact absurd hquery hproc.not_isQuery

/-- What a handler answers at once. -/
theorem known_eq {sc : ShardCtrler} {op : Op} {res : Config}
    (hknown : ctrler.known sc op = some res) :
    sc.isInvalidRequest op.clientId op.requestId ∧ res = .zero := by
  have hknown' :
    (if sc.isInvalidRequest op.clientId op.requestId then some Config.zero else none) =
      some res := hknown
  split at hknown'
  · next h =>
    cases hknown'
    exact ⟨h, rfl⟩
  · cases hknown'

/-- The service keeps its requests in `lastRequestMap`. -/
theorem ctrler_remembers : ctrler.Remembers ShardCtrler.lastRequestMap where
  init := rfl
  execute hexec := execute_lastRequestMap (show ShardCtrler.execute .increasing _ _ = _ from hexec)
  known hknown := (known_eq hknown).1

/-! ## The calls that the duplicate filter does not hide -/

/-- The call `i` is a `Query` that has returned the zero `Config`. -/
def ZeroQuery (events : List (HistoryEvent (Int × Int) Op Config)) (i : Int × Int) : Prop :=
  .ret i .zero ∈ events ∧ ∃ op ∈ events.filterMap (·.op?), ctrler.id op = i ∧ op.isQuery

instance decidableZeroQuery (events : List (HistoryEvent (Int × Int) Op Config)) (i : Int × Int) :
    Decidable (ZeroQuery events i) :=
  inferInstanceAs (Decidable (_ ∧ ∃ _ ∈ _, _))

/-- The history without those calls. -/
def withoutZeros (events : List (HistoryEvent (Int × Int) Op Config)) :
    List (HistoryEvent (Int × Int) Op Config) :=
  events.filter fun e => ¬ ZeroQuery events e.callId

/-- The history of configs after the first `p` entries of the log, as far as they can be
executed. -/
def configsAt (net : CtrlerService) : Nat → List Config
  | 0 => [.zero]
  | p + 1 =>
    match ctrler.stateAt net.log (p + 1) with
    | some sc => sc.configs
    | none => configsAt net p

section
variable {net : CtrlerService} {p q t : Nat} {op : Op} {res : Config}

/-- The configs at a position are those of the state that the log leads to. -/
theorem configsAt_eq {sc : ShardCtrler} (hsc : ctrler.stateAt net.log p = some sc) :
    configsAt net p = sc.configs := by
  cases p with
  | zero =>
    cases hsc
    rfl
  | succ p => rw [configsAt, hsc]

/-- An operation that is not hidden takes effect at its first copy, if that can be executed. -/
def TakesEffect (net : CtrlerService) (p : Nat) (op : Op) : Prop :=
  FirstAt net p op ∧ ¬ ZeroQuery net.events (ctrler.id op) ∧
    (ctrler.stateAt net.log (p + 1)).isSome

open Classical in
/-- The call that takes effect at a position. -/
noncomputable def point (net : CtrlerService) (p : Nat) : Option ((Int × Int) × Op) :=
  if h : ∃ op, TakesEffect net p op then some (ctrler.id h.choose, h.choose) else none

/-- Where there is a point, its operation takes effect. -/
theorem takesEffect_of_point {x : (Int × Int) × Op} (h : point net p = some x) :
    x.1 = ctrler.id x.2 ∧ TakesEffect net p x.2 := by
  unfold point at h
  split at h
  · next hex =>
    cases h
    exact ⟨rfl, hex.choose_spec⟩
  · cases h

/-- Where an operation takes effect, there is its point. -/
theorem TakesEffect.point (h : TakesEffect net p op) : point net p = some (ctrler.id op, op) := by
  have hex : ∃ op, TakesEffect net p op := ⟨op, h⟩
  have heq : hex.choose = op := hex.choose_spec.1.1.unique h.1.1
  rw [Shardctrler.point, dif_pos hex, heq]

variable (h : Inv ctrler net)
include h

/-- A `Query` that has returned the zero `Config` is the operation with its identity. -/
theorem zeroQuery_iff {t₀ : Nat} (hcall : (.call (ctrler.id op) op, t₀) ∈ net.history) :
    ZeroQuery net.events (ctrler.id op) ↔
      (∃ t, (.ret (ctrler.id op) .zero, t) ∈ net.history) ∧ op.isQuery := by
  have hret : (.ret (ctrler.id op) .zero ∈ net.events) ↔
      ∃ t, (.ret (ctrler.id op) .zero, t) ∈ net.history := by
    rw [Service.events, List.mem_map]
    constructor
    · rintro ⟨⟨e, t⟩, hmem, rfl⟩
      exact ⟨t, hmem⟩
    · rintro ⟨t, hmem⟩
      exact ⟨_, hmem, rfl⟩
  have hcalled : net.events.filterMap (·.op?) = net.called := by
    rw [Service.events, List.filterMap_map]
    rfl
  rw [ZeroQuery, hret, hcalled]
  refine and_congr_right fun _ => ⟨?_, fun hquery => ?_⟩
  · rintro ⟨op', hmem, hid, hquery⟩
    obtain ⟨t', hcall'⟩ := h.called_of_mem hmem
    rw [hid] at hcall'
    rwa [(h.clients.call_unique _ _ _ _ _ hcall hcall').1]
  · exact ⟨op, List.mem_filterMap.2 ⟨_, hcall, rfl⟩, rfl, hquery⟩

/-- Where no call takes effect, nothing changes: the entry is a copy, or a `Query`. -/
theorem configsAt_of_point_none (hp : point net p = none) :
    configsAt net (p + 1) = configsAt net p := by
  rw [configsAt]
  split
  swap
  · rfl
  next sc' hsc' =>
  obtain ⟨sc, hsc⟩ := exists_stateAt_of_succ hsc'
  rw [configsAt_eq hsc]
  cases hlog : net.log[p]? with
  | none =>
    have hlen := List.getElem?_eq_none_iff.1 hlog
    rw [Machine.stateAt, replica_of_length_le (hlen.trans p.le_succ),
      ← replica_of_length_le hlen] at hsc'
    rw [Machine.stateAt, hsc'] at hsc
    cases hsc
    rfl
  | some e =>
    obtain ⟨configure, hexec⟩ := exists_execute hlog hsc hsc'
    have hcopy : CopyAt net p e.op := ⟨e.term, hlog⟩
    by_cases hquery : e.op.isQuery
    · exact execute_isQuery hquery hexec
    · have hnot : ¬ FirstAt net p e.op := by
        intro hfirst
        have heff : TakesEffect net p e.op := by
          obtain ⟨t, -, hcall⟩ := hcopy.called h
          exact ⟨hfirst, fun hzero => hquery ((zeroQuery_iff h hcall).1 hzero).2,
            by rw [hsc']; rfl⟩
        rw [heff.point] at hp
        cases hp
      have hknown := (knows_iff_not_first h ctrler_remembers hcopy hsc).2 hnot
      exact congrArg _ (execute_known hknown hexec).1

/-- A call that has returned and is not hidden takes effect, before it returns. -/
theorem exists_takesEffect {i : Int × Int} (hret : (.ret i res, t) ∈ net.history)
    (hzero : ¬ ZeroQuery net.events i) :
    ∃ p < t, ∃ op, i = ctrler.id op ∧ TakesEffect net p op := by
  obtain ⟨op, t₀, source, hcall, -⟩ := h.rets i res t hret
  obtain ⟨rfl, -⟩ := h.clients.call _ _ _ hcall
  obtain ⟨q, hq, hcopy, hsome⟩ := exists_copy h ctrler_remembers hcall hret
  obtain ⟨p, hp, hfirst⟩ := hcopy.exists_first
  exact ⟨p, by omega, op, rfl, hfirst, hzero, stateAt_of_le (by omega) hsome⟩

/-- The new history and the results are those of the sequential controller. -/
theorem TakesEffect.result (hp : TakesEffect net p op) :
    configsAt net (p + 1) = (ctrlModel (configsAt net p) op).1 ∧
      ∀ res t, (.ret (ctrler.id op) res, t) ∈ net.history →
        res = (ctrlModel (configsAt net p) op).2 := by
  obtain ⟨hfirst, hzero, hsome⟩ := hp
  obtain ⟨sc', hsc'⟩ := Option.isSome_iff_exists.1 hsome
  obtain ⟨sc, hsc⟩ := exists_stateAt_of_succ hsc'
  obtain ⟨term, hlog⟩ := hfirst.1
  obtain ⟨configure, hexec⟩ := exists_execute hlog hsc hsc'
  obtain ⟨t₀, -, hcall⟩ := hfirst.1.called h
  have hnew : ¬ sc.isInvalidRequest op.clientId op.requestId := fun hknown =>
    (knows_iff_not_first h ctrler_remembers hfirst.1 hsc).1 hknown hfirst
  rw [configsAt_eq hsc, configsAt_eq hsc', execute_new hnew hexec]
  refine ⟨rfl, fun res t hret => ?_⟩
  obtain ⟨op', t', source, hcall', hans⟩ := h.rets _ _ _ hret
  obtain rfl := (h.clients.call_unique _ _ _ _ _ hcall hcall').1
  by_cases hquery : op.isQuery
  swap
  · -- only a `Query` has a config in its reply
    rw [show replyConfig op configure = .zero from if_neg hquery]
    cases hans with
    | known _ _ hres => exact (known_eq hres).2
    | logged => exact if_neg hquery
  have hres : res ≠ .zero :=
    fun hres => hzero ((zeroQuery_iff h hcall).2 ⟨⟨t, hres ▸ hret⟩, hquery⟩)
  cases hans with
  | known _ _ hknown => exact absurd (known_eq hknown).2 hres
  | @logged p' _ term' store store' configure' hp' hlog' hstore hexec' =>
    -- a copy that is executed is the first one
    have hfirst' : FirstAt net p' op := by
      by_contra hnot
      have hknown := (knows_iff_not_first h ctrler_remembers ⟨term', hlog'⟩ hstore).2 hnot
      refine hres ?_
      rw [(execute_known hknown hexec').2]
      exact if_pos hquery
    obtain rfl := hfirst.position_unique hfirst'
    rw [hsc] at hstore
    cases hstore
    rw [hexec] at hexec'
    cases hexec'
    rfl

/-- The calls that the duplicate filter does not hide are linearizable. -/
theorem linearizable_of_inv : Linearizable ctrlModel [.zero] (withoutZeros net.events) := by
  have hhistory : withoutZeros net.events =
      (net.history.filter fun x => ¬ ZeroQuery net.events x.1.callId).map (·.1) := by
    rw [withoutZeros, Service.events, List.filter_map]
    rfl
  have hmem : ∀ {x}, x ∈ net.history.filter (fun x => ¬ ZeroQuery net.events x.1.callId) ↔
      x ∈ net.history ∧ ¬ ZeroQuery net.events x.1.callId := by
    intro x
    rw [List.mem_filter, decide_eq_true_iff]
  rw [hhistory]
  refine Linearizable.of_times (point net) (configsAt net) net.log.length
    (h.clients.times.sublist List.filter_sublist) ?_ ?_ ?_ ?_ ?_
      (fun p => configsAt_of_point_none h) ?_
  · intro p x hx
    obtain ⟨heq, hfirst, hzero, -⟩ := takesEffect_of_point hx
    obtain ⟨t, -, hcall⟩ := hfirst.1.called h
    rw [heq]
    exact ⟨t, hmem.2 ⟨hcall, hzero⟩⟩
  · intro p q x y hx hy heq
    obtain ⟨hx₁, hp, -⟩ := takesEffect_of_point hx
    obtain ⟨hy₁, hq, -⟩ := takesEffect_of_point hy
    have hop : x.2 = y.2 := hp.1.eq_of_id h hq.1 (by rw [← hx₁, ← hy₁, heq])
    rw [← hop] at hq
    exact hp.position_unique hq
  · intro i res t hret
    obtain ⟨hret, hzero⟩ := hmem.1 hret
    obtain ⟨p, hp, op, rfl, heff⟩ := exists_takesEffect h hret hzero
    exact ⟨p, hp.trans_le (h.clients.time_le _ hret), op, heff.point⟩
  · intro p x op t hx hcall
    obtain ⟨heq, hfirst, -⟩ := takesEffect_of_point hx
    obtain ⟨t', ht', hcall'⟩ := hfirst.1.called h
    rw [heq] at hcall
    obtain ⟨-, rfl⟩ := h.clients.call_unique _ _ _ _ _ (hmem.1 hcall).1 hcall'
    exact ht'
  · intro p x res t hx hret
    obtain ⟨heq, hfirst, -⟩ := takesEffect_of_point hx
    rw [heq] at hret
    obtain ⟨hret, hzero⟩ := hmem.1 hret
    obtain ⟨q, hq, op, hid, heff⟩ := exists_takesEffect h hret hzero
    obtain rfl := hfirst.1.eq_of_id h heff.1.1 hid
    rwa [hfirst.position_unique heff.1]
  · intro p x hx
    obtain ⟨heq, heff⟩ := takesEffect_of_point hx
    obtain ⟨hnext, hres⟩ := heff.result h
    rw [heq]
    exact ⟨hnext, fun res t hret => hres res t (hmem.1 hret).1⟩

end

end DistLabs.Shardctrler
