import DistLabs.Kvsrv.Server
import DistLabs.Lib.Replica

/-!
# kvsrv is linearizable as long as `Finish` comes last

The server knows a retry by the entry that the first execution has left in `request`, and `Finish`
deletes it. A clerk sends `Finish` when one of its attempts was answered, but an earlier attempt,
for which `Call` returned `false`, may still have to run. If its handler runs after `Finish`, the
write is made again (`lateAppend_twice`). In the runs in which no `Put` or `Append` runs after a
`Finish` of its id (`FinishLast`), every write that returns is made once, and the history is
linearizable (`finishLast_linearizable`): a write takes effect where it changes the map and a `Get`
where its reply is from.
-/

namespace DistLabs.Kvsrv

open Lib

/-! ## The table of requests over a sequence of executions -/

/-- The server after the first `p` requests. -/
def served (requests : List Request) (p : Nat) : KVServer :=
  replica (fun kv request => (kv.dispatch request).1) .startKVServer requests p

/-- No write comes after a `Finish` of its id. -/
def FinishesLast (requests : List Request) : Prop :=
  requests.Pairwise fun r r' => ∀ x, r'.writeId = some x → r.finishId ≠ some x

section
variable {requests : List Request} {request request' : Request} {p q : Nat} {x : Int}
  {value : GoString}

theorem served_succ (h : requests[p]? = some request) :
    served requests (p + 1) = ((served requests p).dispatch request).1 :=
  replica_succ h

/-- Past the last request nothing changes. -/
theorem served_of_none (h : requests[p]? = none) :
    served requests (p + 1) = served requests p := by
  have hlen := List.getElem?_eq_none_iff.1 h
  rw [served, served, replica_of_length_le hlen, replica_of_length_le (hlen.trans p.le_succ)]

/-- An entry of the table is from a write. -/
theorem exists_write (h : (served requests p).request[x]? = some value) :
    ∃ q < p, ∃ request, requests[q]? = some request ∧ request.writeId = some x := by
  induction p with
  | zero =>
    rw [show (served requests 0).request = ∅ from rfl, Std.ExtTreeMap.getElem?_empty] at h
    cases h
  | succ p ih =>
    have hprev : ∀ {kv}, kv = served requests p → kv.request[x]? = some value →
        ∃ q < p + 1, ∃ request, requests[q]? = some request ∧ request.writeId = some x := by
      rintro _ rfl hx
      obtain ⟨q, hq, hex⟩ := ih hx
      exact ⟨q, hq.trans p.lt_succ_self, hex⟩
    cases hr : requests[p]? with
    | none => exact hprev (served_of_none hr) h
    | some request =>
      by_cases hw : request.writeId = some x
      · exact ⟨p, p.lt_succ_self, request, hr, hw⟩
      rw [served_succ hr] at h
      by_cases hf : request.finishId = some x
      · rw [KVServer.request_of_finish hf] at h
        cases h
      · rw [KVServer.request_of_ne hw hf] at h
        exact hprev rfl h

/-- From a write on the table has its reply, up to a repetition of the write. -/
theorem request_of_repeated (hlast : FinishesLast requests) (hp : requests[p]? = some request)
    (hw : request.writeId = some x) (hq : requests[q]? = some request')
    (hw' : request'.writeId = some x) (hlt : p < q) :
    (served requests q).request[x]? = some ((served requests p).dispatch request).2 := by
  obtain ⟨hqlen, hqget⟩ := List.getElem?_eq_some_iff.1 hq
  have hno : ∀ k < q, ∀ r, requests[k]? = some r → r.finishId ≠ some x := by
    intro k hk r hr
    obtain ⟨hklen, hkget⟩ := List.getElem?_eq_some_iff.1 hr
    have hpair := List.pairwise_iff_getElem.1 hlast k q hklen hqlen hk x
    rw [hkget, hqget] at hpair
    exact hpair hw'
  -- by induction on the position, as long as it is not beyond that of the repetition
  have hkept : ∀ k, p + 1 ≤ k → k ≤ q →
      (served requests k).request[x]? = some ((served requests p).dispatch request).2 := by
    intro k hk
    induction k, hk using Nat.le_induction with
    | base =>
      intro _
      rw [served_succ hp]
      exact KVServer.request_of_write hw
    | succ k hk ih =>
      intro hkq
      obtain ⟨r, hr⟩ : ∃ r, requests[k]? = some r :=
        ⟨_, List.getElem?_eq_getElem (by omega)⟩
      rw [served_succ hr]
      exact KVServer.request_kept (ih (by omega)) (hno k (by omega) r hr)
  exact hkept q hlt (Nat.le_refl q)

/-- A write that was executed was made, there or before. -/
theorem exists_new (hp : requests[p]? = some request) (hw : request.writeId = some x) :
    ∃ q ≤ p, ∃ request', requests[q]? = some request' ∧ request'.writeId = some x ∧
      (served requests q).request[x]? = none := by
  induction p using Nat.strongRecOn generalizing request with
  | ind p ih =>
    cases hx : (served requests p).request[x]? with
    | none => exact ⟨p, Nat.le_refl p, request, hp, hw, hx⟩
    | some value =>
      obtain ⟨k, hk, r, hr, hwr⟩ := exists_write hx
      obtain ⟨q, hq, hex⟩ := ih k hk hr hwr
      exact ⟨q, hq.trans hk.le, hex⟩

end

/-! ## The condition -/

namespace Net

/-- The requests that were executed. -/
def requests (net : Net) : List Request := net.execs.map (·.rpc.request)

/-- The server before execution `p`. -/
def serverAt (net : Net) (p : Nat) : KVServer := served net.requests p

/-- Execution `p` is one of call `i` and changes the map. -/
def ChangedBy (net : Net) (i p : Nat) : Prop :=
  ∃ e ∈ net.execs[p]?, e.rpc.call = i ∧ (net.serverAt p).changes e.rpc.request

instance decidableChangedBy (net : Net) (i p : Nat) : Decidable (net.ChangedBy i p) :=
  inferInstanceAs (Decidable (∃ e ∈ net.execs[p]?, e.rpc.call = i ∧
    (net.serverAt p).changes e.rpc.request))

/-- The handlers of `Put` and `Append` do not run for an id for which `Finish` has run. -/
def FinishLast (net : Net) : Action → Prop
  | .exec k => ∀ rpc ∈ net.pending[k]?, ∀ x ∈ rpc.request.writeId, ∀ e ∈ net.execs,
      e.rpc.request.finishId ≠ some x
  | _ => True

instance decidableFinishLast (net : Net) : ∀ a, Decidable (net.FinishLast a)
  | .exec k => inferInstanceAs (Decidable (∀ rpc ∈ net.pending[k]?, ∀ x ∈ rpc.request.writeId,
      ∀ e ∈ net.execs, e.rpc.request.finishId ≠ some x))
  | .call _ | .send _ | .fail _ | .recv _ | .ret _ => isTrue trivial

end Net

/-! ## The calls -/

/-- The requests of a call. -/
def Call.Sends (c : Call) (request : Request) : Prop :=
  request = c.op.request c.id ∨ request.finishId = some c.id

/-- What may become of a call. -/
structure Call.Later (c c' : Call) : Prop where
  op : c'.op = c.op
  id : c'.id = c.id
  attempt : c.attempt ≤ c'.attempt
  next : c'.attempt = c.attempt → c'.waiting → c.waiting ∧ c'.next = c.next
  reply : ∀ r, c.reply = some r → c'.reply = some r

theorem Call.Later.refl (c : Call) : c.Later c :=
  ⟨rfl, rfl, Nat.le_refl _, fun _ h => ⟨h, rfl⟩, fun _ h => h⟩

/-- A request belongs to a call, and while the call waits for it, it is the one that its loop
sends. -/
def Sent (calls : List Call) (rpc : Rpc) : Prop :=
  ∃ c, calls[rpc.call]? = some c ∧ rpc.attempt ≤ c.attempt ∧ c.Sends rpc.request ∧
    (rpc.attempt = c.attempt → c.waiting → c.next = some rpc.request)

section
variable {c c' : Call} {calls : List Call} {i j : Nat} {request : Request} {rpc : Rpc} {x : Int}

/-- A call sends what is next. -/
theorem Call.sends_next (h : c.next = some request) : c.Sends request := by
  unfold Call.next at h
  split at h
  · next hreply =>
    cases h
    exact .inl rfl
  · cases h
  · split at h
    · cases h
    · cases h
      exact .inr rfl

/-- A call that receives a reply goes on. -/
theorem Call.later_receive (c : Call) (value : GoString) (p : Nat) :
    c.Later (c.receive value p) := by
  unfold Call.receive
  split
  · next hreply =>
    refine ⟨rfl, rfl, Nat.le_refl _, fun _ hw => absurd hw Bool.false_ne_true, fun r hr => ?_⟩
    rw [hreply] at hr
    cases hr
  · exact ⟨rfl, rfl, Nat.le_refl _, fun _ hw => absurd hw Bool.false_ne_true, fun _ hr => hr⟩

/-- A write of a call is its first request. -/
theorem Call.Sends.write (h : c.Sends request) (hw : request.writeId = some x) :
    request = c.op.request c.id ∧ c.id = x ∧ c.op.isWrite := by
  rcases h with rfl | hf
  · refine ⟨rfl, ?_⟩
    cases hop : c.op with
    | get key =>
      rw [hop] at hw
      cases hw
    | putAppend key value op =>
      rw [hop] at hw
      exact ⟨Option.some.inj hw, rfl⟩
  · cases request with
    | finish args => cases hw
    | get key | putAppend op args => cases hf

/-- Replacing a call by a later one. -/
theorem getElem?_set_call (hc : calls[i]? = some c) :
    (calls.set i c')[j]? = if i = j then some c' else calls[j]? := by
  rw [List.getElem?_set]
  split
  · next heq => rw [if_pos (List.getElem?_eq_some_iff.1 hc).1]
  · rfl

/-- If one call goes on, then every call goes on or stays as it is. -/
theorem later_of_set (hc : calls[i]? = some c) (hl : c.Later c') {d : Call}
    (hd : calls[j]? = some d) : ∃ d', (calls.set i c')[j]? = some d' ∧ d.Later d' := by
  rw [getElem?_set_call hc]
  split
  · next heq =>
    subst heq
    rw [hc] at hd
    cases hd
    exact ⟨c', rfl, hl⟩
  · exact ⟨d, hd, .refl d⟩

/-- If one call goes on, then every call is one that went on or stayed as it was. -/
theorem exists_of_set (hc : calls[i]? = some c) (hl : c.Later c') {d' : Call}
    (hd : (calls.set i c')[j]? = some d') : ∃ d, calls[j]? = some d ∧ d.Later d' := by
  rw [getElem?_set_call hc] at hd
  split at hd
  · next heq =>
    subst heq
    cases hd
    exact ⟨c, hc, hl⟩
  · exact ⟨d', hd, .refl d'⟩

/-- What a call has sent, it has still sent when a call goes on. -/
theorem Sent.set (hc : calls[i]? = some c) (hl : c.Later c') (h : Sent calls rpc) :
    Sent (calls.set i c') rpc := by
  obtain ⟨d, hd, hattempt, hsends, hnext⟩ := h
  obtain ⟨d', hd', hlater⟩ := later_of_set hc hl hd
  refine ⟨d', hd', hattempt.trans hlater.attempt, ?_, fun heq hwaiting => ?_⟩
  · unfold Call.Sends
    rw [hlater.op, hlater.id]
    exact hsends
  · have heq' : d'.attempt = d.attempt := by
      have hle := hlater.attempt
      omega
    obtain ⟨hwaiting', hnext'⟩ := hlater.next heq' hwaiting
    rw [hnext']
    exact hnext (heq.trans heq') hwaiting'

/-- What a call has sent, it has still sent when another call is made. -/
theorem Sent.concat (h : Sent calls rpc) : Sent (calls ++ [c]) rpc := by
  obtain ⟨d, hd, hrest⟩ := h
  exact ⟨d, getElem?_grown (List.prefix_append ..) hd, hrest⟩

end

/-! ## The invariant -/

/-- What holds in every state of a run in which `Finish` comes last. -/
structure Net.Inv (net : Net) : Prop where
  server : net.server = net.serverAt net.execs.length
  value : ∀ (p : Nat) (e : Exec), net.execs[p]? = some e →
    e.value = ((net.serverAt p).dispatch e.rpc.request).2
  last : FinishesLast net.requests
  id_le : ∀ (i : Nat) (c : Call), net.calls[i]? = some c → c.id ≤ net.id
  id_lt : ∀ (i j : Nat) (c d : Call), i < j → net.calls[i]? = some c → net.calls[j]? = some d →
    d.op.isWrite →
    c.id < d.id
  pending : ∀ rpc ∈ net.pending, Sent net.calls rpc
  execs : ∀ e ∈ net.execs, Sent net.calls e.rpc
  reply : ∀ (i : Nat) (c : Call) value p, net.calls[i]? = some c → c.reply = some (value, p) →
    ∃ e : Exec, net.execs[p]? = some e ∧ e.rpc.call = i ∧ e.rpc.request = c.op.request c.id ∧
      e.value = value
  call : ∀ (i : Nat) (c : Call), net.calls[i]? = some c → ∃ t, (.call i c.op, t) ∈ net.history
  called : ∀ i op t, (.call i op, t) ∈ net.history → ∃ c, net.calls[i]? = some c ∧ c.op = op
  after : ∀ i op t, (.call i op, t) ∈ net.history → ∀ p (e : Exec), net.execs[p]? = some e →
    e.rpc.call = i → t ≤ p
  ret : ∀ i res t, (.ret i res, t) ∈ net.history → ∃ c p, net.calls[i]? = some c ∧
    c.reply = some (res, p) ∧ p < t
  times : net.history.Pairwise (·.2 ≤ ·.2)
  time_le : ∀ x ∈ net.history, x.2 ≤ net.execs.length

namespace Net

variable {net net' : Net} {i p : Nat} {c c' : Call} {rpc : Rpc}

/-- A call that goes on, with a reply that is from an execution. -/
theorem Inv.set (h : net.Inv) (hc : net.calls[i]? = some c) (hl : c.Later c')
    (hreply : ∀ value p, c'.reply = some (value, p) → ∃ e : Exec, net.execs[p]? = some e ∧
      e.rpc.call = i ∧
      e.rpc.request = c.op.request c.id ∧ e.value = value) :
    Inv { net with calls := net.calls.set i c' } where
  server := h.server
  value := h.value
  last := h.last
  id_le j d' hd' := by
    obtain ⟨d, hd, hlater⟩ := exists_of_set hc hl hd'
    rw [hlater.id]
    exact h.id_le j d hd
  id_lt j k d' e' hjk hd' he' hw := by
    obtain ⟨d, hd, hlater⟩ := exists_of_set hc hl hd'
    obtain ⟨e, he, hlater'⟩ := exists_of_set hc hl he'
    rw [hlater'.op] at hw
    rw [hlater.id, hlater'.id]
    exact h.id_lt j k d e hjk hd he hw
  pending rpc hrpc := (h.pending rpc hrpc).set hc hl
  execs e he := (h.execs e he).set hc hl
  reply j d' value p hd' hreply' := by
    have hset := hd'
    rw [getElem?_set_call hc] at hset
    split at hset
    · next heq =>
      subst heq
      cases hset
      rw [hl.op, hl.id]
      exact hreply value p hreply'
    · exact h.reply j d' value p hset hreply'
  call j d' hd' := by
    obtain ⟨d, hd, hlater⟩ := exists_of_set hc hl hd'
    rw [hlater.op]
    exact h.call j d hd
  called j op t hcall := by
    obtain ⟨d, hd, rfl⟩ := h.called j op t hcall
    obtain ⟨d', hd', hlater⟩ := later_of_set hc hl hd
    exact ⟨d', hd', hlater.op⟩
  after := h.after
  ret j res t hret := by
    obtain ⟨d, p, hd, hreply', hlt⟩ := h.ret j res t hret
    obtain ⟨d', hd', hlater⟩ := later_of_set hc hl hd
    exact ⟨d', p, hd', hlater.reply _ hreply', hlt⟩
  times := h.times
  time_le := h.time_le

/-- A call that goes on without a new reply. -/
theorem Inv.set_of_reply (h : net.Inv) (hc : net.calls[i]? = some c) (hl : c.Later c')
    (hreply : c'.reply = c.reply) : Inv { net with calls := net.calls.set i c' } := by
  refine h.set hc hl fun value p hreply' => ?_
  rw [hreply] at hreply'
  exact h.reply i c value p hc hreply'

/-- A request that is sent. -/
theorem Inv.sent (h : net.Inv) (hrpc : Sent net.calls rpc) :
    Inv { net with pending := net.pending ++ [rpc] } := by
  refine { h with pending := fun rpc' hrpc' => ?_ }
  rcases List.mem_append.1 hrpc' with hmem | hmem
  · exact h.pending rpc' hmem
  · rw [List.mem_singleton.1 hmem]
    exact hrpc

/-- A return with the reply of the call. -/
theorem Inv.returns {value : GoString} (h : net.Inv) (hc : net.calls[i]? = some c)
    (hreply : c.reply = some (value, p)) :
    Inv { net with history := net.history ++ [(.ret i value, net.execs.length)] } := by
  have hcall : ∀ {j op t}, (.call j op, t) ∈ net.history ++ [(.ret i value, net.execs.length)] →
      (.call j op, t) ∈ net.history := by
    intro j op t hmem
    rcases List.mem_append.1 hmem with hmem | hmem
    · exact hmem
    · cases List.mem_singleton.1 hmem
  refine { h with
    call := fun j d hd => ?_
    called := fun j op t hmem => h.called j op t (hcall hmem)
    after := fun j op t hmem => h.after j op t (hcall hmem)
    ret := fun j res t hmem => ?_
    times := times_record h.times h.time_le _
    time_le := time_le_record h.time_le _ }
  · obtain ⟨t, ht⟩ := h.call j d hd
    exact ⟨t, List.mem_append_left _ ht⟩
  · rcases List.mem_append.1 hmem with hmem | hmem
    · exact h.ret j res t hmem
    · cases List.mem_singleton.1 hmem
      obtain ⟨e, he, -⟩ := h.reply i c value p hc hreply
      exact ⟨c, p, hc, hreply, (List.getElem?_eq_some_iff.1 he).1⟩

/-- A new call. Its id is larger than those of the writes before. -/
theorem Inv.calls {op : Op} {id : Int} (h : net.Inv)
    (hid : id = if op.isWrite then net.id + 1 else net.id) :
    Inv { net with
      id
      calls := net.calls ++ [.enter op id]
      history := net.history ++ [(.call net.calls.length op, net.execs.length)] } := by
  have hle : net.id ≤ id ∧ (op.isWrite → net.id < id) := by
    rw [hid]
    split
    · exact ⟨by omega, fun _ => by omega⟩
    · next hget => exact ⟨Int.le_refl _, fun hw => absurd hw hget⟩
  have hnew : ∀ {j : Nat} {d : Call}, net.calls[j]? = some d →
      (net.calls ++ [.enter op id])[j]? = some d :=
    fun hd => getElem?_grown (List.prefix_append ..) hd
  refine {
    server := h.server, value := h.value, last := h.last
    id_le := ?_, id_lt := ?_
    pending := fun rpc hrpc => (h.pending rpc hrpc).concat
    execs := fun e he => (h.execs e he).concat
    reply := ?_, call := ?_, called := ?_, after := ?_, ret := ?_
    times := times_record h.times h.time_le _
    time_le := time_le_record h.time_le _ }
  · intro j d hd
    rcases of_getElem?_concat hd with hd | ⟨-, rfl⟩
    · exact (h.id_le j d hd).trans hle.1
    · exact Int.le_refl _
  · intro j k d e hjk hd he hw
    rcases of_getElem?_concat hd with hd | ⟨rfl, -⟩
    · rcases of_getElem?_concat he with he | ⟨-, rfl⟩
      · exact h.id_lt j k d e hjk hd he hw
      · exact (h.id_le j d hd).trans_lt (hle.2 hw)
    · have hlen := (List.getElem?_eq_some_iff.1 he).1
      rw [List.length_append, List.length_singleton] at hlen
      omega
  · intro j d value p hd hreply
    rcases of_getElem?_concat hd with hd | ⟨-, rfl⟩
    · exact h.reply j d value p hd hreply
    · cases hreply
  · intro j d hd
    rcases of_getElem?_concat hd with hd | ⟨rfl, rfl⟩
    · obtain ⟨t, ht⟩ := h.call j d hd
      exact ⟨t, List.mem_append_left _ ht⟩
    · exact ⟨_, List.mem_append_right _ (List.mem_singleton_self _)⟩
  · intro j op' t hmem
    rcases List.mem_append.1 hmem with hmem | hmem
    · obtain ⟨d, hd, rfl⟩ := h.called j op' t hmem
      exact ⟨d, hnew hd, rfl⟩
    · cases List.mem_singleton.1 hmem
      exact ⟨_, List.getElem?_concat_length, rfl⟩
  · intro j op' t hmem q e he hcall
    rcases List.mem_append.1 hmem with hmem | hmem
    · exact h.after j op' t hmem q e he hcall
    · -- no execution is of a call that is made only now
      cases List.mem_singleton.1 hmem
      obtain ⟨d, hd, -⟩ := h.execs e (List.mem_of_getElem? he)
      rw [hcall, List.getElem?_eq_none (Nat.le_refl _)] at hd
      cases hd
  · intro j res t hmem
    rcases List.mem_append.1 hmem with hmem | hmem
    · obtain ⟨d, p, hd, hrest⟩ := h.ret j res t hmem
      exact ⟨d, p, hnew hd, hrest⟩
    · cases List.mem_singleton.1 hmem

section
variable {e : Exec} (hexecs : net'.execs = net.execs ++ [e])
include hexecs

/-- An execution adds its request to those that were executed. -/
theorem requests_exec : net'.requests = net.requests ++ [e.rpc.request] := by
  rw [requests, hexecs, List.map_append]
  rfl

/-- An execution does not change the past. -/
theorem serverAt_exec (hp : p ≤ net.execs.length) : net'.serverAt p = net.serverAt p := by
  have hlen : p ≤ net.requests.length := by rwa [requests, List.length_map]
  rw [serverAt, requests_exec hexecs]
  exact replica_append hlen _

/-- The server after an execution. -/
theorem serverAt_exec_last : net'.serverAt net'.execs.length =
    ((net.serverAt net.execs.length).dispatch e.rpc.request).1 := by
  have hlen : net'.execs.length = net.requests.length + 1 := by
    rw [hexecs, List.length_append, requests, List.length_map, List.length_singleton]
  rw [hlen, serverAt, requests_exec hexecs, served, replica_concat, requests, List.length_map]
  rfl

end

/-- An execution of a handler. -/
theorem Inv.exec {k : Nat} (h : net.Inv) (hok : net.FinishLast (.exec k))
    (hrpc : net.pending[k]? = some rpc) :
    Inv { net with
      server := (net.server.dispatch rpc.request).1
      pending := net.pending.eraseIdx k
      execs := net.execs ++ [⟨rpc, (net.server.dispatch rpc.request).2⟩] } := by
  have hsent : Sent net.calls rpc := h.pending rpc (List.mem_of_getElem? hrpc)
  have hnew : ∀ {q : Nat} {e : Exec}, net.execs[q]? = some e →
      (net.execs ++ [⟨rpc, (net.server.dispatch rpc.request).2⟩])[q]? = some e :=
    fun he => getElem?_grown (List.prefix_append ..) he
  refine { h with
    server := ?_, value := ?_, last := ?_
    pending := fun rpc' hrpc' => h.pending rpc' (List.mem_of_mem_eraseIdx hrpc')
    execs := ?_, reply := ?_, after := ?_, time_le := ?_ }
  · refine Eq.trans ?_ (serverAt_exec_last rfl).symm
    exact congrArg (fun kv => (KVServer.dispatch kv rpc.request).1) h.server
  · intro q e he
    rcases of_getElem?_concat he with he | ⟨rfl, rfl⟩
    · rw [serverAt_exec rfl (List.getElem?_eq_some_iff.1 he).1.le]
      exact h.value q e he
    · rw [serverAt_exec rfl (Nat.le_refl _), ← h.server]
  · rw [FinishesLast, requests_exec rfl, List.pairwise_append]
    refine ⟨h.last, List.pairwise_singleton .., fun r hr r' hr' x hw => ?_⟩
    obtain ⟨e, he, rfl⟩ := List.mem_map.1 hr
    rw [List.mem_singleton.1 hr'] at hw
    exact hok rpc hrpc x hw e he
  · intro e he
    rcases List.mem_append.1 he with he | he
    · exact h.execs e he
    · rw [List.mem_singleton.1 he]
      exact hsent
  · intro j d value p hd hreply
    obtain ⟨e, he, hrest⟩ := h.reply j d value p hd hreply
    exact ⟨e, hnew he, hrest⟩
  · intro j op t hmem q e he hcall
    rcases of_getElem?_concat he with he | ⟨rfl, -⟩
    · exact h.after j op t hmem q e he hcall
    · exact h.time_le _ hmem
  · intro x hx
    rw [List.length_append]
    exact (h.time_le x hx).trans (Nat.le_add_right ..)

theorem inv_init : init.Inv where
  server := rfl
  value _ _ he := by cases he
  last := .nil
  id_le _ _ hc := by cases hc
  id_lt _ _ _ _ _ hc := by cases hc
  pending _ hrpc := by cases hrpc
  execs _ he := by cases he
  reply _ _ _ _ hc := by cases hc
  call _ _ hc := by cases hc
  called _ _ _ hmem := by cases hmem
  after _ _ _ hmem := by cases hmem
  ret _ _ _ hmem := by cases hmem
  times := .nil
  time_le _ hx := by cases hx

/-- The invariant holds after a step. -/
theorem inv_step {a : Action} (h : net.Inv) (hok : net.FinishLast a)
    (hs : net.step a = some net') :
    net'.Inv := by
  cases stepped_of_step hs with
  | call hid => exact h.calls hid
  | @send i c request hc hnext =>
    have hl : c.Later { c with waiting := true, attempt := c.attempt + 1 } :=
      ⟨rfl, rfl, Nat.le_succ _, fun heq => absurd heq (Nat.succ_ne_self _), fun _ hr => hr⟩
    exact (h.set_of_reply hc hl rfl).sent ⟨{ c with waiting := true, attempt := c.attempt + 1 },
      List.getElem?_set_self (List.getElem?_eq_some_iff.1 hc).1, Nat.le_refl _,
        Call.sends_next hnext,
      fun _ _ => hnext⟩
  | exec hrpc => exact h.exec hok hrpc
  | @fail i c hc =>
    have hl : c.Later { c with waiting := false } :=
      ⟨rfl, rfl, Nat.le_refl _, fun _ hw => absurd hw Bool.false_ne_true, fun _ hr => hr⟩
    exact h.set_of_reply hc hl rfl
  | @recv p e c he hc hwaiting hattempt =>
    have hnext : c.next = some e.rpc.request := by
      obtain ⟨d, hd, -, -, hnext⟩ := h.execs e (List.mem_of_getElem? he)
      rw [hc] at hd
      cases hd
      exact hnext hattempt.symm hwaiting
    refine h.set hc (c.later_receive e.value p) fun value q hq => ?_
    unfold Call.receive at hq
    split at hq
    · -- the reply is to the first request of the call
      next hreply =>
      cases hq
      rw [Call.next, hreply] at hnext
      exact ⟨e, he, rfl, (Option.some.inj hnext).symm, rfl⟩
    · exact h.reply _ c value q hc hq
  | @ret i c value p hc hreply =>
    have hl : c.Later { c with returned := true } :=
      ⟨rfl, rfl, Nat.le_refl _, fun _ hw => ⟨hw, rfl⟩, fun _ hr => hr⟩
    exact (h.set_of_reply hc hl rfl).returns
      (List.getElem?_set_self (List.getElem?_eq_some_iff.1 hc).1) hreply

/-- The invariant holds in every reachable state. -/
theorem inv_reach (h : Reach step FinishLast init net) : net.Inv :=
  h.invariant inv_init inv_step

/-! ## Where calls take effect -/

/-- Call `c` takes effect at execution `p`: it changes the map there, or it is a `Get` and has its
reply from there. -/
structure TakesEffect (net : Net) (p : Nat) (e : Exec) (c : Call) : Prop where
  exec : net.execs[p]? = some e
  call : net.calls[e.rpc.call]? = some c
  effect : (net.serverAt p).changes e.rpc.request ∨ ¬ c.op.isWrite ∧ c.reply.map (·.2) = some p

/-- The call that takes effect at an execution. -/
def point (net : Net) (p : Nat) : Option (Nat × Op) := do
  let e ← net.execs[p]?
  let c ← net.calls[e.rpc.call]?
  if (net.serverAt p).changes e.rpc.request ∨ ¬ c.op.isWrite ∧ c.reply.map (·.2) = some p then
    return (e.rpc.call, c.op)
  else none

/-- The point at a position is that of the call that takes effect there. -/
theorem point_eq_some {x : Nat × Op} :
    net.point p = some x ↔ ∃ e c, net.TakesEffect p e c ∧ x = (e.rpc.call, c.op) := by
  simp only [point, Option.bind_eq_bind, Option.bind_eq_some_iff]
  constructor
  · rintro ⟨e, he, c, hc, hx⟩
    split at hx
    · next heffect =>
      cases hx
      exact ⟨e, c, ⟨he, hc, heffect⟩, rfl⟩
    · cases hx
  · rintro ⟨e, c, ⟨he, hc, heffect⟩, rfl⟩
    exact ⟨e, he, c, hc, if_pos heffect⟩

section
variable {q : Nat} {e e' : Exec} {d : Call} (h : net.Inv)
include h

omit h in
theorem requests_get (he : net.execs[p]? = some e) : net.requests[p]? = some e.rpc.request := by
  rw [requests, List.getElem?_map, he]
  rfl

/-- Calls with one id are the same if both are writes. -/
theorem call_unique {i j : Nat} (hc : net.calls[i]? = some c) (hd : net.calls[j]? = some d)
    (hid : c.id = d.id) (hw : c.op.isWrite) (hw' : d.op.isWrite) : i = j := by
  rcases Nat.lt_trichotomy i j with hlt | heq | hlt
  · exact absurd hid (h.id_lt i j c d hlt hc hd hw').ne
  · exact heq
  · exact absurd hid (h.id_lt j i d c hlt hd hc hw).ne'

/-- The two ways to take effect. -/
theorem TakesEffect.cases (ht : net.TakesEffect p e c) :
    (∃ key value op, c.op = .putAppend key value op ∧
      e.rpc.request = .putAppend op ⟨key, value, c.id⟩ ∧ (net.serverAt p).request[c.id]? = none) ∨
    ∃ key, c.op = .get key ∧ e.rpc.request = .get key ∧ c.reply = some (e.value, p) := by
  rcases ht.effect with hchanges | ⟨hget, hreply⟩
  · obtain ⟨d, hd, -, hsends, -⟩ := h.execs e (List.mem_of_getElem? ht.exec)
    rw [ht.call] at hd
    cases hd
    cases hr : e.rpc.request with
    | get key | finish args =>
      rw [hr] at hchanges
      cases hchanges
    | putAppend op args =>
      rw [hr] at hsends hchanges
      obtain ⟨hrequest, hid, -⟩ := hsends.write rfl
      cases hop : c.op with
      | get key =>
        rw [hop] at hrequest
        cases hrequest
      | putAppend key value op' =>
        rw [hop] at hrequest
        cases hrequest
        exact .inl ⟨key, value, op, rfl, rfl, Option.isNone_iff_eq_none.1 hchanges⟩
  · cases hop : c.op with
    | putAppend key value op =>
      rw [hop] at hget
      exact absurd rfl hget
    | get key =>
      obtain ⟨⟨value, q⟩, hreply', heq⟩ := Option.map_eq_some_iff.1 hreply
      obtain rfl : q = p := heq
      obtain ⟨e', he', -, hrequest, rfl⟩ := h.reply _ _ _ _ ht.call hreply'
      rw [ht.exec] at he'
      cases he'
      rw [hop] at hrequest
      exact .inr ⟨key, rfl, hrequest, hreply'⟩

/-- A repeated write is answered with the reply of the first execution. -/
theorem known_of_lt {x : Int} (he : net.execs[p]? = some e) (hw : e.rpc.request.writeId = some x)
    (he' : net.execs[q]? = some e') (hw' : e'.rpc.request.writeId = some x) (hlt : p < q) :
    (net.serverAt q).request[x]? = some e.value := by
  rw [h.value p e he]
  exact request_of_repeated h.last (requests_get he) hw (requests_get he') hw' hlt

/-- A write that is not in the table is the first of its id. -/
theorem le_of_new {x : Int} (he : net.execs[p]? = some e) (hw : e.rpc.request.writeId = some x)
    (he' : net.execs[q]? = some e') (hw' : e'.rpc.request.writeId = some x)
    (hnew : (net.serverAt p).request[x]? = none) : p ≤ q := by
  by_contra hlt
  rw [known_of_lt h he' hw' he hw (Nat.lt_of_not_le hlt)] at hnew
  cases hnew

/-- A call takes effect once. -/
theorem TakesEffect.unique (hp : net.TakesEffect p e c) (hq : net.TakesEffect q e' d)
    (hcall : e.rpc.call = e'.rpc.call) : p = q := by
  obtain rfl : c = d := by
    have heq := hp.call
    rw [hcall, hq.call] at heq
    exact (Option.some.inj heq).symm
  rcases hp.cases h with ⟨key, value, op, hop, hr, hnew⟩ | ⟨key, hop, -, hreply⟩
  · rcases hq.cases h with ⟨key', value', op', -, hr', hnew'⟩ | ⟨key', hop', -⟩
    · have hw : e.rpc.request.writeId = some c.id := congrArg Request.writeId hr
      have hw' : e'.rpc.request.writeId = some c.id := congrArg Request.writeId hr'
      exact Nat.le_antisymm (le_of_new h hp.exec hw hq.exec hw' hnew)
        (le_of_new h hq.exec hw' hp.exec hw hnew')
    · rw [hop] at hop'
      cases hop'
  · rcases hq.cases h with ⟨key', value', op', hop', -⟩ | ⟨key', -, -, hreply'⟩
    · rw [hop] at hop'
      cases hop'
    · exact congrArg Prod.snd (Option.some.inj (hreply.symm.trans hreply'))

/-- A call that has its reply has taken effect, with this reply. -/
theorem exists_effect {i : Nat} {value : GoString} (hc : net.calls[i]? = some c)
    (hreply : c.reply = some (value, p)) :
    ∃ q ≤ p, ∃ e, net.TakesEffect q e c ∧ e.rpc.call = i ∧ e.value = value := by
  obtain ⟨e, he, hcall, hrequest, hvalue⟩ := h.reply i c value p hc hreply
  cases hop : c.op with
  | get key =>
    refine ⟨p, Nat.le_refl p, e, ⟨he, hcall ▸ hc, .inr ⟨?_, by rw [hreply]; rfl⟩⟩, hcall, hvalue⟩
    rw [hop]
    exact Bool.false_ne_true
  | putAppend key v op =>
    have hw : e.rpc.request.writeId = some c.id := by rw [hrequest, hop]; rfl
    obtain ⟨q, hq, request, hget, hw', hnew⟩ := exists_new (requests_get he) hw
    rw [requests, List.getElem?_map, Option.map_eq_some_iff] at hget
    obtain ⟨e', he', rfl⟩ := hget
    -- the execution that made the write is one of the same call, by the id
    obtain ⟨d, hd, -, hsends, -⟩ := h.execs e' (List.mem_of_getElem? he')
    obtain ⟨hrequest', hid, hwrite⟩ := hsends.write hw'
    obtain rfl : e'.rpc.call = i := call_unique h hd hc hid hwrite (by rw [hop]; rfl)
    rw [hc] at hd
    cases hd
    have hchanges : (net.serverAt q).changes e'.rpc.request := by
      rw [hrequest', hop]
      exact Option.isNone_iff_eq_none.2 hnew
    refine ⟨q, hq, e', ⟨he', hc, .inl hchanges⟩, rfl, ?_⟩
    rcases Nat.lt_or_eq_of_le hq with hlt | rfl
    · have hknown := known_of_lt h he' hw' he hw hlt
      rw [← hvalue, h.value p e he, hrequest, hop]
      exact (congrArg Prod.snd (KVServer.dispatch_known hknown)).symm
    · rw [he] at he'
      cases he'
      exact hvalue

/-- A call that has returned has taken effect before, with the result. -/
theorem TakesEffect.ret {res : GoString} {t : Nat} (hp : net.TakesEffect p e c)
    (hret : (.ret e.rpc.call res, t) ∈ net.history) : res = e.value ∧ p < t := by
  obtain ⟨d, k, hd, hreply, hlt⟩ := h.ret _ res t hret
  obtain ⟨q, hq, e', hq', hcall, hvalue⟩ := exists_effect h hd hreply
  obtain rfl := hp.unique h hq' hcall.symm
  have heq := hp.exec
  rw [hq'.exec] at heq
  cases heq
  exact ⟨hvalue.symm, hq.trans_lt hlt⟩

/-- The map and the replies are those of the model. -/
theorem TakesEffect.result (hp : net.TakesEffect p e c) :
    (net.serverAt (p + 1)).get = (kvModel (net.serverAt p).get c.op).1 ∧
      e.value = (kvModel (net.serverAt p).get c.op).2 := by
  rw [h.value p e hp.exec, serverAt, served_succ (requests_get hp.exec)]
  rcases hp.cases h with ⟨key, value, op, hop, hr, hnew⟩ | ⟨key, hop, hr, -⟩
  · rw [hop, hr]
    have hnew' : (served net.requests p).request[(PutAppendArgs.mk key value c.id).id]? = none :=
      hnew
    exact ⟨(KVServer.dispatch_new hnew').1, (KVServer.dispatch_new hnew').2.1⟩
  · rw [hop, hr]
    exact ⟨rfl, rfl⟩

/-- Where no call takes effect, the map does not change. -/
theorem get_of_point_none (hp : net.point p = none) :
    (net.serverAt (p + 1)).get = (net.serverAt p).get := by
  cases he : net.execs[p]? with
  | none =>
    have hnone : net.requests[p]? = none := by rw [requests, List.getElem?_map, he]; rfl
    rw [serverAt, served_of_none hnone]
    rfl
  | some e =>
    obtain ⟨c, hc, -⟩ := h.execs e (List.mem_of_getElem? he)
    have hsame : ¬ (net.serverAt p).changes e.rpc.request := by
      intro hchanges
      rw [point_eq_some.2 ⟨e, c, ⟨he, hc, .inl hchanges⟩, rfl⟩] at hp
      cases hp
    rw [serverAt, served_succ (requests_get he)]
    exact KVServer.get_dispatch hsame

/-- The history is linearizable. -/
theorem Inv.linearizable : Linearizable kvModel (fun _ => []) net.events := by
  refine Linearizable.of_times net.point (fun p => (net.serverAt p).get) net.execs.length h.times
    ?_ ?_ ?_ ?_ ?_ (fun p => get_of_point_none h) ?_
  · intro p x hx
    obtain ⟨e, c, hp, rfl⟩ := point_eq_some.1 hx
    exact h.call _ c hp.call
  · intro p q x y hx hy heq
    obtain ⟨e, c, hp, rfl⟩ := point_eq_some.1 hx
    obtain ⟨e', d, hq, rfl⟩ := point_eq_some.1 hy
    exact hp.unique h hq heq
  · intro i res t hret
    obtain ⟨c, k, hc, hreply, -⟩ := h.ret i res t hret
    obtain ⟨p, -, e, hp, rfl, -⟩ := exists_effect h hc hreply
    exact ⟨p, (List.getElem?_eq_some_iff.1 hp.exec).1, c.op, point_eq_some.2 ⟨e, c, hp, rfl⟩⟩
  · intro p x op t hx hcall
    obtain ⟨e, c, hp, rfl⟩ := point_eq_some.1 hx
    exact h.after _ op t hcall p e hp.exec rfl
  · intro p x res t hx hret
    obtain ⟨e, c, hp, rfl⟩ := point_eq_some.1 hx
    exact (hp.ret h hret).2
  · intro p x hx
    obtain ⟨e, c, hp, rfl⟩ := point_eq_some.1 hx
    refine ⟨(hp.result h).1, fun res t hret => ?_⟩
    rw [(hp.ret h hret).1]
    exact (hp.result h).2

/-- A write that has returned has changed the map once. -/
theorem Inv.once {i : Nat} {key value res : GoString} {op : WriteOp}
    (hcall : .call i (.putAppend key value op) ∈ net.events) (hret : .ret i res ∈ net.events) :
    ∃ p, net.ChangedBy i p ∧ (∀ q, net.ChangedBy i q → q = p) ∧
      (op = .append → res = (net.serverAt p).get key) := by
  have hmem : ∀ {x}, x ∈ net.events → ∃ t, (x, t) ∈ net.history := by
    intro x hx
    obtain ⟨⟨x, t⟩, hmem, rfl⟩ := List.mem_map.1 hx
    exact ⟨t, hmem⟩
  obtain ⟨t, hret⟩ := hmem hret
  obtain ⟨t', hcall⟩ := hmem hcall
  obtain ⟨c, k, hc, hreply, -⟩ := h.ret i res t hret
  obtain ⟨p, -, e, hp, rfl, hvalue⟩ := exists_effect h hc hreply
  have hop : c.op = .putAppend key value op := by
    obtain ⟨d, hd, hop⟩ := h.called _ _ _ hcall
    rw [hc] at hd
    cases hd
    exact hop
  have hchanges : (net.serverAt p).changes e.rpc.request := by
    rcases hp.effect with hchanges | ⟨hget, -⟩
    · exact hchanges
    · rw [hop] at hget
      exact absurd rfl hget
  refine ⟨p, ⟨e, hp.exec, rfl, hchanges⟩, ?_, ?_⟩
  · rintro q ⟨e', he', hcall', hchanges'⟩
    have hq : net.TakesEffect q e' c := ⟨he', hcall' ▸ hc, .inl hchanges'⟩
    exact hq.unique h hp hcall'
  · rintro rfl
    rw [← hvalue, (hp.result h).2, hop]
    rfl

end

end Net

open Net in
/-- **Exactly once.** In the runs in which `Finish` comes last, every `PutAppend` that has returned
has changed the map once, `Append` returns the value from before, and the history is
linearizable. -/
theorem finishLast_linearizable {net : Net} (hreach : Reach step FinishLast init net) :
    (∀ i key value op res, .call i (.putAppend key value op) ∈ net.events →
      .ret i res ∈ net.events →
      ∃ p, net.ChangedBy i p ∧ (∀ q, net.ChangedBy i q → q = p) ∧
        (op = .append → res = (net.serverAt p).get key)) ∧
      Linearizable kvModel (fun _ => []) net.events :=
  ⟨fun _ _ _ _ _ hcall hret => (inv_reach hreach).once hcall hret, (inv_reach hreach).linearizable⟩

/-- Two writes and a read, with a reply that is lost, and a `Put` that is repeated. -/
def retriedWrites : Net :=
  reached Net.step Net.FinishLast .init [
    .call (.putAppend [0] [7] .append), .call (.putAppend [0] [5] .put),
    .send 0, .exec 0, .fail 0, .send 1, .send 0, .exec 0, .exec 0, .recv 1, .recv 2,
    .send 0, .exec 0, .recv 3, .ret 0, .call (.get [0]), .send 2, .exec 0, .recv 4, .ret 2,
    .send 1, .exec 0, .recv 5, .ret 1]

/-- A request is executed twice, while another client writes and reads. -/
theorem finishLast_linearizable_retried :
    retriedWrites.events =
      [.call 0 (.putAppend [0] [7] .append), .call 1 (.putAppend [0] [5] .put),
      .ret 0 [], .call 2 (.get [0]), .ret 2 [5], .ret 1 [5]] ∧
    ((∀ i key value op res, .call i (.putAppend key value op) ∈ retriedWrites.events →
      .ret i res ∈ retriedWrites.events →
      ∃ p, retriedWrites.ChangedBy i p ∧ (∀ q, retriedWrites.ChangedBy i q → q = p) ∧
        (op = .append → res = (retriedWrites.serverAt p).get key)) ∧
      Linearizable kvModel (fun _ => []) retriedWrites.events) :=
  ⟨by decide +kernel, finishLast_linearizable (reach_reached _)⟩

/-! ## Without the condition -/

/-- `Call` returns `false` for the first attempt of an `Append`, whose handler runs only after the
second attempt was answered and `Finish` was executed. -/
def lateAppend : Net :=
  reached Net.step Always .init [
    .call (.putAppend [0] [7] .append), .send 0, .fail 0, .send 0, .exec 1, .recv 0,
    .send 0, .exec 1, .recv 1, .ret 0, .exec 0, .call (.get [0]), .send 1, .exec 0,
      .recv 3, .ret 1]

/-- What the clients see of the late handler. -/
theorem lateAppend_events : lateAppend.events =
    [.call 0 (.putAppend [0] [7] .append), .ret 0 [], .call 1 (.get [0]), .ret 1 [7, 7]] := by
  decide +kernel

/-- No order explains that one `Append` was read as two. -/
theorem lateAppend_not_linearizable : ¬ Linearizable kvModel (fun _ => []) lateAppend.events := by
  rw [lateAppend_events]
  rintro ⟨order, hlin⟩
  have hcalled : ∀ x ∈ order, x = (0, .putAppend [0] [7] .append) ∨ x = (1, .get [0]) := by
    rintro ⟨i, op⟩ hx
    have hmem := hlin.called _ hx
    simpa using hmem
  have hget : 1 ∈ order.map (·.1) := hlin.complete 1 [7, 7] (by decide)
  rcases order with _ | ⟨x, rest⟩
  · cases hget
  rcases hcalled x List.mem_cons_self with rfl | rfl
  · -- the `Get` is next, and reads what one `Append` leaves
    rcases rest with _ | ⟨y, rest⟩
    · exact absurd hget (by decide)
    rcases hcalled y (List.mem_cons_of_mem _ List.mem_cons_self) with rfl | rfl
    · exact absurd List.mem_cons_self (List.nodup_cons.1 hlin.nodup).1
    · exact absurd (hlin.legal.2.1 [7, 7] (by decide)) (by decide)
  · exact absurd (hlin.legal.1 [7, 7] (by decide)) (by decide)

/-- The write that has returned has changed the map twice. -/
theorem lateAppend_twice : Reach Net.step Always .init lateAppend ∧
    lateAppend.ChangedBy 0 0 ∧ lateAppend.ChangedBy 0 2 ∧
    .call 0 (.putAppend [0] [7] .append) ∈ lateAppend.events ∧ .ret 0 [] ∈ lateAppend.events ∧
    ¬ Linearizable kvModel (fun _ => []) lateAppend.events := by
  refine ⟨reach_reached _,
    by decide +kernel, by decide +kernel, ?_, ?_, lateAppend_not_linearizable⟩
  · rw [lateAppend_events]
    exact List.mem_cons_self
  · rw [lateAppend_events]
    exact List.mem_cons_of_mem _ List.mem_cons_self

end DistLabs.Kvsrv
