import DistLabs.Kvraft.Applier
import DistLabs.Lib.Answers

/-!
# kvraft is linearizable

The handlers of `kvraft/server.go` are those of a service behind wait channels (`kvserver`):
`PutAppend` answers at once if the request is known, `Get` never does. A `Put` or `Append` takes
effect at its first position in the log: its client has made no later call before (`not_known`). A
`Get` takes effect at the first position that explains its answer. Both positions lie between the
call and its return, so the calls in the order of their positions are a linearization
(`kvraft_linearizable`).
-/

namespace DistLabs.Kvraft

open Lib

/-! ## The handlers and the clerks -/

/-- What the check of `PutAppend` answers. `Get` does not have it. -/
def Store.known (kv : Store) (op : Op) : Option GoString :=
  if op.opType ≠ .get ∧ kv.isInvalidRequest op.clientId op.requestId then some [] else none

/-- What `Get` and `PutAppend` reply when they get `res` from their channel. -/
def replyValue (op res : Op) : GoString := if op.opType = .get then res.value else []

/-- `kvraft` as a service. -/
def kvserver : Machine Store Op Op GoString where
  init := .empty
  execute kv op := some (kv.execute op)
  known := Store.known
  reply := replyValue
  clientId := Op.clientId
  requestId := Op.requestId

/-- `KvModel`, for all keys: a map in which absent keys have the empty string. -/
def kvModel (db : GoString → GoString) (op : Op) : (GoString → GoString) × GoString :=
  match op.opType with
  | .get => (db, db op.key)
  | .put => (Function.update db op.key op.value, [])
  | .append => (Function.update db op.key (db op.key ++ op.value), [])

/-- What a `Get` reads. -/
def Store.read (kv : Store) (key : GoString) : GoString := kv.kvdb[key]?.getD []

/-! ## Executing operations -/

section
variable {kv : Store} {op : Op}

/-- The table of requests has no part in what is read. -/
theorem updateLastRequest_read (kv : Store) (op : Op) :
    (kv.updateLastRequest op).read = kv.read := by
  rw [updateLastRequest_eq]
  rfl

/-- The table of requests has what it had, and the operation. -/
theorem apply_mem {c r : Int} (h : r ∈ (kv.apply op).lastRequestMap[c]?) :
    r ∈ kv.lastRequestMap[c]? ∨ op.clientId = c ∧ op.requestId = r := by
  rw [apply_lastRequestMap] at h
  exact mem_enterRequest h

/-- A `Get` reads, and writes nothing. -/
theorem read_of_get (hget : op.opType = .get) :
    (kv.apply op).read = kv.read ∧ (kv.execute op).2.value = kv.read op.key := by
  rw [Store.apply, execute_get hget]
  exact ⟨updateLastRequest_read _ _, rfl⟩

/-- A write that is new is performed. -/
theorem apply_write (hwrite : op.opType ≠ .get)
    (hnew : ¬ kv.isInvalidRequest op.clientId op.requestId) :
    (kv.apply op).read = (kvModel kv.read op).1 := by
  have hins : ∀ value, (Store.mk (kv.kvdb.insert op.key value) kv.lastRequestMap).read =
      Function.update kv.read op.key value := by
    intro value
    funext key
    rw [Store.read, GoMap.getElem?_insert]
    by_cases hkey : key = op.key
    · rw [if_pos hkey, hkey, Function.update_self]
      rfl
    · rw [if_neg hkey, Function.update_of_ne hkey]
      rfl
  rw [Store.apply, execute_eq fun hc => hnew hc.2]
  refine (updateLastRequest_read _ _).trans ?_
  unfold Store.perform kvModel
  cases hop : op.opType with
  | get => exact absurd hop hwrite
  | put => exact hins op.value
  | append => exact hins _

end

/-- An entry of the table of requests comes from an operation of the log. -/
theorem exists_of_lastRequest {log : List Op} {k : Nat} {c r : Int}
    (h : r ∈ (stateAt log k).lastRequestMap[c]?) :
    ∃ q < k, ∃ op, log[q]? = some op ∧ op.clientId = c ∧ op.requestId = r := by
  induction k with
  | zero =>
    have hempty : (∅ : GoMap Int Int)[c]? = some r := h
    rw [Std.ExtTreeMap.getElem?_empty] at hempty
    cases hempty
  | succ k ih =>
    have hold : r ∈ (stateAt log k).lastRequestMap[c]? →
        ∃ q < k + 1, ∃ op, log[q]? = some op ∧ op.clientId = c ∧ op.requestId = r := by
      intro h
      obtain ⟨q, hq, hop⟩ := ih h
      exact ⟨q, by omega, hop⟩
    cases hk : log[k]? with
    | none =>
      rw [stateAt, replica_of_length_le (by rw [List.getElem?_eq_none_iff] at hk; omega),
        ← replica_of_length_le (List.getElem?_eq_none_iff.1 hk)] at h
      exact hold h
    | some op =>
      rw [stateAt, replica_succ hk] at h
      rcases apply_mem h with h | h
      · exact hold h
      · exact ⟨k, by omega, op, hk, h⟩

/-! ## Answers -/

/-- A run of the service. -/
abbrev KVService := Service Store Op Op GoString

/-- The state after the first `k` entries of the log. -/
def storeAt (net : KVService) (k : Nat) : Store := stateAt (net.log.map (·.op)) k

section
variable {net : KVService} {op op' : Op} {p q k t : Nat} {res : GoString} {source : ReplySource}

/-- The service can execute any log. -/
theorem kvserver_stateAt (net : KVService) (k : Nat) :
    kvserver.stateAt net.log k = some (storeAt net k) := by
  have hfold : ∀ (l : List (ServiceEntry Op)) (kv : Store),
      l.foldl (fun s e => s.bind fun s => (kvserver.execute s e.op).map (·.1)) (some kv) =
        some ((l.map (·.op)).foldl Store.apply kv) := by
    intro l
    induction l with
    | nil => exact fun _ => rfl
    | cons e l ih => exact fun kv => ih (kv.apply e.op)
  rw [storeAt, stateAt, replica, ← List.map_take]
  exact hfold _ _

/-- The operation at a position of the log. -/
def OpAt (net : KVService) (p : Nat) (op : Op) : Prop := ∃ term, net.log[p]? = some ⟨term, op⟩

/-- The operation at a position, in the list of operations. -/
theorem OpAt.get (h : OpAt net p op) : (net.log.map (·.op))[p]? = some op := by
  obtain ⟨term, hp⟩ := h
  rw [List.getElem?_map, hp]
  rfl

/-- What is in the list of operations is in the log. -/
theorem opAt_of_get (h : (net.log.map (·.op))[p]? = some op) : OpAt net p op := by
  rw [List.getElem?_map, Option.map_eq_some_iff] at h
  obtain ⟨⟨term, op⟩, hp, rfl⟩ := h
  exact ⟨term, hp⟩

theorem OpAt.unique (h : OpAt net p op) (h' : OpAt net p op') : op = op' := by
  obtain ⟨term, hp⟩ := h
  obtain ⟨term', hp'⟩ := h'
  rw [hp] at hp'
  cases hp'
  rfl

theorem storeAt_succ (h : OpAt net p op) : storeAt net (p + 1) = (storeAt net p).apply op :=
  replica_succ h.get

/-- An answer to a `Put` or `Append`. -/
theorem answer_write (h : Service.Answer kvserver net.log op res source t)
    (hwrite : op.opType ≠ .get) : res = [] ∧
      ((∃ p < t, OpAt net p op) ∨
        ∃ k ≤ t, (storeAt net k).isInvalidRequest op.clientId op.requestId) := by
  cases h with
  | known hk hstore hres =>
    rw [kvserver_stateAt] at hstore
    cases hstore
    have hres' : (storeAt net _).known op = some res := hres
    unfold Store.known at hres'
    split at hres'
    · next hinvalid =>
      cases hres'
      exact ⟨rfl, .inr ⟨_, hk, hinvalid.2⟩⟩
    · cases hres'
  | logged hp hlog => exact ⟨if_neg hwrite, .inl ⟨_, hp, _, hlog⟩⟩

/-- An answer to a `Get`. -/
theorem answer_get (h : Service.Answer kvserver net.log op res source t)
    (hget : op.opType = .get) :
    ∃ p < t, OpAt net p op ∧ res = (storeAt net p).read op.key := by
  cases h with
  | known _ _ hres =>
    have hnone : Store.known _ op = some res := hres
    rw [Store.known, if_neg fun hc => hc.1 hget] at hnone
    cases hnone
  | @logged p _ term store store' res hp hlog hstore hexec =>
    rw [kvserver_stateAt] at hstore
    cases hstore
    refine ⟨p, hp, ⟨term, hlog⟩, ?_⟩
    have hres : res = ((storeAt net p).execute op).2 :=
      (congrArg Prod.snd (Option.some.inj hexec)).symm
    rw [hres, ← (read_of_get hget).2]
    exact if_pos hget

/-- A position of the log that explains a call: any copy of a write, and a copy of a `Get` that was
there when it returned, and at which it reads what it returned. -/
def Explains (net : KVService) (p : Nat) (op : Op) : Prop :=
  OpAt net p op ∧
    (op.opType = .get → ∃ res t, (.ret (kvserver.id op) res, t) ∈ net.history ∧ p < t ∧
    res = (storeAt net p).read op.key)

/-- A call takes effect at the first position that explains it. -/
def TakesEffect (net : KVService) (p : Nat) (op : Op) : Prop :=
  Explains net p op ∧ ∀ q < p, ¬ Explains net q op

open Classical in
/-- The call that takes effect at a position. -/
noncomputable def point (net : KVService) (p : Nat) : Option ((Int × Int) × Op) :=
  if h : ∃ op, TakesEffect net p op then some (kvserver.id h.choose, h.choose) else none

/-- Where there is a point, its operation takes effect. -/
theorem takesEffect_of_point {x : (Int × Int) × Op} (h : point net p = some x) :
    x.1 = kvserver.id x.2 ∧ TakesEffect net p x.2 := by
  unfold point at h
  split at h
  · next hex =>
    cases h
    exact ⟨rfl, hex.choose_spec⟩
  · cases h

/-- Where an operation takes effect, there is its point. -/
theorem TakesEffect.point (h : TakesEffect net p op) :
    point net p = some (kvserver.id op, op) := by
  have hex : ∃ op, TakesEffect net p op := ⟨op, h⟩
  have heq : hex.choose = op := hex.choose_spec.1.1.unique h.1.1
  rw [Kvraft.point, dif_pos hex, heq]

theorem exists_takesEffect (h : Explains net p op) : ∃ q ≤ p, TakesEffect net q op := by
  classical
  have hex : ∃ p, Explains net p op := ⟨p, h⟩
  exact ⟨Nat.find hex, Nat.find_min' hex h, Nat.find_spec hex, fun q hq => Nat.find_min hex hq⟩

/-! ## Where writes take effect -/

variable (h : Service.Inv kvserver net)
include h

/-- An operation was called before it got into the log. -/
theorem opAt_called (hop : OpAt net p op) :
    ∃ t ≤ p, (.call (kvserver.id op) op, t) ∈ net.history := by
  obtain ⟨term, hp⟩ := hop
  exact h.logged p _ hp

/-- Operations of the log with one identity are the same. -/
theorem opAt_eq_of_id (hop : OpAt net p op) (hop' : OpAt net q op')
    (hid : kvserver.id op = kvserver.id op') : op = op' := by
  obtain ⟨t, -, hcall⟩ := opAt_called h hop
  obtain ⟨t', -, hcall'⟩ := opAt_called h hop'
  rw [← hid] at hcall'
  exact (h.clients.call_unique _ _ _ _ _ hcall hcall').1

/-- Before the first copy of a write there is no later operation of its client. By induction on the
position: a later call would come after the return of the write, and its answer needs a copy, or an
earlier operation of that kind. -/
theorem request_lt (hcalled : net.Called kvserver op) (hwrite : op.opType ≠ .get)
    (hno : ∀ q < k, ¬ OpAt net q op) (hq : q < k) (hop : OpAt net q op')
    (hclient : op'.clientId = op.clientId) : op'.requestId < op.requestId := by
  induction q using Nat.strongRecOn generalizing op' with
  | ind q ih =>
    obtain ⟨t₀, hcall⟩ := hcalled
    obtain ⟨t', ht', hcall'⟩ := opAt_called h hop
    by_contra hge
    have hne : op'.requestId ≠ op.requestId := by
      intro heq
      have hid : kvserver.id op' = kvserver.id op := Prod.ext hclient heq
      rw [hid] at hcall'
      obtain rfl := (h.clients.call_unique _ _ _ _ _ hcall hcall').1
      exact hno q hq hop
    have hlt : op.requestId < op'.requestId := by omega
    have hreq : op.requestId < (net.clerks op.clientId).requestId := by
      rcases (h.clients.call _ _ _ hcall').2 with hlt' | hpend
      · have hlt'' : op'.requestId < (net.clerks op'.clientId).requestId := hlt'
        rw [hclient] at hlt''
        omega
      · have hid : op'.requestId = (net.clerks op'.clientId).requestId :=
          congrArg Prod.snd (h.clients.pending _ _ hpend).1
        rw [hclient] at hid
        omega
    obtain ⟨res, t, hret⟩ := h.clients.returned _ _ _ hcall hreq
    have hle : t ≤ t' := by
      refine h.clients.sequential op.clientId op.requestId op'.requestId res op' t t' hret ?_ hlt
      rw [← hclient]
      exact hcall'
    obtain ⟨op₁, t₁, source, hcall₁, hans⟩ := h.rets _ _ _ hret
    obtain rfl := (h.clients.call_unique _ _ _ _ _ hcall hcall₁).1
    rcases (answer_write hans hwrite).2 with ⟨p, hp, hcopy⟩ | ⟨k', hk', r, hr, hler⟩
    · exact hno p (by omega) hcopy
    · obtain ⟨q', hq', op'', hget, hclient', rfl⟩ := exists_of_lastRequest hr
      have hlt' := ih q' (by omega) (by omega) (opAt_of_get hget) hclient'
      omega

/-- A write is not known before its first copy. -/
theorem not_known (hcalled : net.Called kvserver op) (hwrite : op.opType ≠ .get)
    (hno : ∀ q < k, ¬ OpAt net q op) :
    ¬ (storeAt net k).isInvalidRequest op.clientId op.requestId := by
  rintro ⟨r, hr, hle⟩
  obtain ⟨q, hq, op', hget, hclient, rfl⟩ := exists_of_lastRequest hr
  have hlt := request_lt h hcalled hwrite hno hq (opAt_of_get hget) hclient
  omega

/-- A write that has returned has a copy in the log from before. -/
theorem exists_copy {i : Int × Int} {t₀ : Nat} (hcall : (.call i op, t₀) ∈ net.history)
    (hret : (.ret i res, t) ∈ net.history) (hwrite : op.opType ≠ .get) :
    res = [] ∧ ∃ q < t, OpAt net q op := by
  obtain ⟨op₁, t₁, source, hcall₁, hans⟩ := h.rets _ _ _ hret
  obtain rfl := (h.clients.call_unique _ _ _ _ _ hcall hcall₁).1
  obtain ⟨rfl, -⟩ := h.clients.call _ _ _ hcall
  obtain ⟨hres, hcopy | ⟨k, hk, hknown⟩⟩ := answer_write hans hwrite
  · exact ⟨hres, hcopy⟩
  · refine ⟨hres, ?_⟩
    by_contra hno
    exact not_known h ⟨t₀, hcall⟩ hwrite
      (fun q hq hcopy => hno ⟨q, hq.trans_le hk, hcopy⟩) hknown

/-- The position at which a call takes effect lies before its return. -/
theorem TakesEffect.lt_ret (hp : TakesEffect net p op)
    (hret : (.ret (kvserver.id op) res, t) ∈ net.history) : p < t := by
  by_cases hget : op.opType = .get
  · obtain ⟨res', t', hret', hlt, -⟩ := hp.1.2 hget
    obtain ⟨-, rfl⟩ := h.clients.ret_unique _ _ _ _ _ hret hret'
    exact hlt
  · obtain ⟨t₀, -, hcall⟩ := opAt_called h hp.1.1
    obtain ⟨-, q, hq, hcopy⟩ := exists_copy h hcall hret hget
    by_contra hge
    exact hp.2 q (by omega) ⟨hcopy, fun hget' => absurd hget' hget⟩

/-- A call that has returned takes effect. -/
theorem exists_point {i : Int × Int} (hret : (.ret i res, t) ∈ net.history) :
    ∃ p op, i = kvserver.id op ∧ TakesEffect net p op := by
  obtain ⟨op, t₀, source, hcall, hans⟩ := h.rets i res t hret
  obtain ⟨rfl, -⟩ := h.clients.call _ _ _ hcall
  by_cases hget : op.opType = .get
  · obtain ⟨p, hp, hop, hres⟩ := answer_get hans hget
    obtain ⟨q, -, hq⟩ := exists_takesEffect ⟨hop, fun _ => ⟨res, t, hret, hp, hres⟩⟩
    exact ⟨q, op, rfl, hq⟩
  · obtain ⟨-, p, -, hop⟩ := exists_copy h hcall hret hget
    obtain ⟨q, -, hq⟩ := exists_takesEffect ⟨hop, fun hget' => absurd hget' hget⟩
    exact ⟨q, op, rfl, hq⟩

/-- The results are those of the model. -/
theorem TakesEffect.result (hp : TakesEffect net p op) :
    (storeAt net (p + 1)).read = (kvModel (storeAt net p).read op).1 ∧
      ∀ res t, (.ret (kvserver.id op) res, t) ∈ net.history →
        res = (kvModel (storeAt net p).read op).2 := by
  obtain ⟨t₀, -, hcall⟩ := opAt_called h hp.1.1
  rw [storeAt_succ hp.1.1]
  by_cases hget : op.opType = .get
  · have hmodel : kvModel (storeAt net p).read op =
        ((storeAt net p).read, (storeAt net p).read op.key) := by
      rw [kvModel, hget]
    rw [hmodel]
    refine ⟨(read_of_get hget).1, fun res t hret => ?_⟩
    obtain ⟨res', t', hret', -, hres⟩ := hp.1.2 hget
    obtain ⟨rfl, -⟩ := h.clients.ret_unique _ _ _ _ _ hret hret'
    exact hres
  · have hnew : ¬ (storeAt net p).isInvalidRequest op.clientId op.requestId :=
      not_known h ⟨t₀, hcall⟩ hget
        fun q hq hcopy => hp.2 q hq ⟨hcopy, fun hget' => absurd hget' hget⟩
    refine ⟨apply_write hget hnew, fun res t hret => ?_⟩
    rw [(exists_copy h hcall hret hget).1]
    unfold kvModel
    cases hop : op.opType with
    | get => exact absurd hop hget
    | put => rfl
    | append => rfl

omit h in
/-- Where no call takes effect, nothing changes. -/
theorem read_of_point_none (hp : point net p = none) :
    (storeAt net (p + 1)).read = (storeAt net p).read := by
  cases hlog : net.log[p]? with
  | none =>
    have hlen : (net.log.map (·.op)).length ≤ p := by
      rw [List.length_map]
      exact List.getElem?_eq_none_iff.1 hlog
    have heq : storeAt net (p + 1) = storeAt net p := by
      rw [storeAt, storeAt, stateAt, stateAt, replica_of_length_le hlen,
        replica_of_length_le (hlen.trans p.le_succ)]
    rw [heq]
  | some entry =>
    have hop : OpAt net p entry.op := ⟨entry.term, hlog⟩
    rw [storeAt_succ hop]
    by_cases hget : entry.op.opType = .get
    · exact (read_of_get hget).1
    · obtain ⟨q, hq, hq'⟩ := exists_takesEffect ⟨hop, fun hget' => absurd hget' hget⟩
      rcases Nat.lt_or_eq_of_le hq with hlt | rfl
      · rw [show (storeAt net p).apply entry.op = storeAt net p from replay hq'.1.1.get hlt]
      · rw [hq'.point] at hp
        cases hp

end

/-- Every history of calls of `Get`, `Put` and `Append` is linearizable. -/
theorem kvraft_linearizable {net : KVService}
    (hreach : Reach (Service.step kvserver) Always (.init kvserver) net) :
    Linearizable kvModel (fun _ => []) net.events := by
  have h : Service.Inv kvserver net := Service.inv_reach hreach
  refine Linearizable.of_times (point net) (fun p => (storeAt net p).read) net.log.length
    h.clients.times
    ?_ ?_ ?_ ?_ ?_ (fun p => read_of_point_none) ?_
  · intro p x hx
    obtain ⟨heq, hp⟩ := takesEffect_of_point hx
    obtain ⟨t, -, hcall⟩ := opAt_called h hp.1.1
    rw [heq]
    exact ⟨t, hcall⟩
  · intro p q x y hx hy heq
    obtain ⟨hx₁, hp⟩ := takesEffect_of_point hx
    obtain ⟨hy₁, hq⟩ := takesEffect_of_point hy
    have hop : x.2 = y.2 := opAt_eq_of_id h hp.1.1 hq.1.1 (by rw [← hx₁, ← hy₁, heq])
    rw [← hop] at hq
    rcases Nat.lt_trichotomy p q with hlt | heq | hlt
    · exact absurd hp.1 (hq.2 p hlt)
    · exact heq
    · exact absurd hq.1 (hp.2 q hlt)
  · intro i res t hret
    obtain ⟨p, op, rfl, hp⟩ := exists_point h hret
    obtain ⟨term, hlog⟩ := hp.1.1
    exact ⟨p, (List.getElem?_eq_some_iff.1 hlog).1, op, hp.point⟩
  · intro p x op t hx hcall
    obtain ⟨heq, hp⟩ := takesEffect_of_point hx
    obtain ⟨t', ht', hcall'⟩ := opAt_called h hp.1.1
    rw [heq] at hcall
    obtain ⟨-, rfl⟩ := h.clients.call_unique _ _ _ _ _ hcall hcall'
    exact ht'
  · intro p x res t hx hret
    obtain ⟨heq, hp⟩ := takesEffect_of_point hx
    rw [heq] at hret
    exact hp.lt_ret h hret
  · intro p x hx
    obtain ⟨heq, hp⟩ := takesEffect_of_point hx
    rw [heq]
    exact hp.result h

/-- A client writes and another one reads. -/
def writeAndRead : KVService :=
  reached (Service.step kvserver) Always (.init kvserver) ([.raft 0 1 true] ++
    Service.viaLog 0 ⟨1, 0, .put, [10], [7]⟩ ++ Service.viaLog 1 ⟨2, 0, .get, [10], []⟩)

/-- A client writes, and another one reads what was written. -/
theorem writeAndRead_linearizable :
    writeAndRead.events = [.call (1, 0) ⟨1, 0, .put, [10], [7]⟩, .ret (1, 0) [],
      .call (2, 0) ⟨2, 0, .get, [10], []⟩, .ret (2, 0) [7]] ∧
    Linearizable kvModel (fun _ => []) writeAndRead.events :=
  ⟨by decide +kernel, kvraft_linearizable (reach_reached _)⟩

end DistLabs.Kvraft
