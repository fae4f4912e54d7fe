import DistLabs.Stack.Handlers

/-!
# The stack refines the service

Every orderly run of a service on `raft.go` is a run of the service over an assumed Raft
(`Lib.Service`), with the same calls, replies and returns: what `Lib.Service` assumes of Raft holds
of `raft.go`. The log of the service is that of the executed commands (`Agree`); an entry is
appended to it when the first server executes it. A server that is started again is a new server of
the service, which installs a snapshot first (`incarnation`).
-/

namespace DistLabs

open Lib

variable {n : Nat} {τ σ κ α ρ : Type}

/-- The code of a service does what the machine `m` says. -/
structure ServiceHost.Implements (host : ServiceHost τ κ α ρ) (m : Machine σ κ α ρ)
    (Rel : τ → Nat → σ → Prop) : Prop extends Host.Implements host.toHost m Rel where
  known : ∀ {t k s op}, Rel t k s → host.known t op = m.known s op
  reply : host.reply = m.reply
  clientId : host.clientId = m.clientId
  requestId : host.requestId = m.requestId

/-! ## Servers -/

/-- The server of the service that stands for server `i` after `epoch` restarts. -/
def incarnation (epoch : Nat) (i : Fin n) : Nat := Nat.pair epoch i

/-- Every epoch of every server is a server of its own. -/
theorem incarnation_inj {e e' : Nat} {i j : Fin n} :
    incarnation e i = incarnation e' j ↔ e = e' ∧ i = j := by
  rw [incarnation, incarnation, Nat.pair_eq_pair, Fin.val_inj]

/-- The server of the service that stands for the running instance of server `i`. -/
def Stack.inst (S : Stack n τ κ α ρ) (i : Fin n) : Nat :=
  incarnation (S.group.cluster.servers i).epoch i

/-- Different servers are different incarnations. -/
theorem Stack.inst_inj (S : Stack n τ κ α ρ) {i j : Fin n} : S.inst i = S.inst j ↔ i = j := by
  rw [Stack.inst, Stack.inst, incarnation_inj]
  exact ⟨fun h => h.2, fun h => ⟨by rw [h], h⟩⟩

/-- A server of the service shows what the applier, Raft and the slots of a server are. -/
structure ServerRefines (rf : Raft n κ) (applied : Nat) (slots : GoMap Nat Nat)
    (sv : ServiceServer σ) : Prop where
  applied : sv.applied = applied
  term : sv.currentTerm = rf.currentTerm
  leader : sv.isLeader = decide (rf.state = .leader)
  slots : sv.waitChMap = slots

/-- A state of the stack and a state of the service with the same clerks and handlers. -/
structure Refines (host : ServiceHost τ κ α ρ) (m : Machine σ κ α ρ) (Rel : τ → Nat → σ → Prop)
    (S : Stack n τ κ α ρ) (net : Service σ κ α ρ) : Prop where
  agree : Agree host.toHost m Rel net.log S.group
  server : ∀ i, ServerRefines (S.raft i) (S.group.replicas i).applied (S.waitChMaps i)
    (net.servers (S.inst i))
  unused : ∀ i e, (S.group.cluster.servers i).epoch < e →
    net.servers (incarnation e i) = { store := m.init }
  starts : ∀ st ∈ net.starts, ∃ i, .start i (some st.op) st.index st.term ∈ S.group.cluster.trace
  started : ∀ i op index term, .start i (some op) index term ∈ S.group.cluster.trace →
    ∃ s, ⟨s, index, term, op⟩ ∈ net.starts
  chans : net.chans.map (·.buffer) = S.chans
  handlers : ∀ h hd, S.handlers[h]? = some (some hd) →
    net.handlers h = some ⟨S.inst hd.server, hd.op, hd.pc⟩
  free : ∀ h, S.handlers.length ≤ h → net.handlers h = none
  clerks : net.clerks = S.clerks
  replies : net.replies.map (fun rep => (rep.id, rep.res)) = S.replies
  history : net.events = S.history

section
variable {host : ServiceHost τ κ α ρ} {m : Machine σ κ α ρ} {Rel : τ → Nat → σ → Prop}
  {S S' : Stack n τ κ α ρ} {net net' : Service σ κ α ρ} {i : Fin n} {h : Nat}
  {hd : StackHandler n κ α ρ}

theorem refines_init (himp : host.Implements m Rel) :
    Refines host m Rel (.init host : Stack n τ κ α ρ) (.init m) where
  agree := agree_init himp.toImplements
  server _ := ⟨rfl, rfl, rfl, rfl⟩
  unused _ _ _ := rfl
  starts _ hst := by cases hst
  started _ _ _ _ hst := by cases hst
  chans := rfl
  handlers _ _ hhd := by cases hhd
  free _ _ := rfl
  clerks := rfl
  replies := rfl
  history := rfl

/-- What holds of the servers of the service after the one for server `i` has changed. -/
theorem Stack.forall_update {P : Fin n → ServiceServer σ → Prop} {sv : ServiceServer σ}
    (hi : P i sv) (hP : ∀ j, j ≠ i → P j (net.servers (S.inst j))) (j : Fin n) :
    P j (Function.update net.servers (S.inst i) sv (S.inst j)) := by
  by_cases hj : j = i
  · subst hj
    rw [Function.update_self]
    exact hi
  · rw [Function.update_of_ne fun heq => hj (S.inst_inj.1 heq)]
    exact hP j hj

/-! ## Clerks and handlers -/

section
variable (hR : Refines host m Rel S net)
include hR

/-- A handler of the stack that goes on or returns. -/
theorem Refines.handlers_set (h : Nat) (hd' : Option (StackHandler n κ α ρ))
    (hd₀ : Option (ServiceHandler κ α ρ))
    (hh : ∀ hd ∈ hd', hd₀ = some ⟨S.inst hd.server, hd.op, hd.pc⟩) :
    (∀ k hd, (S.handlers.set h hd')[k]? = some (some hd) →
      Function.update net.handlers h hd₀ k = some ⟨S.inst hd.server, hd.op, hd.pc⟩) ∧
    (h < S.handlers.length → ∀ k, (S.handlers.set h hd').length ≤ k →
      Function.update net.handlers h hd₀ k = none) := by
  constructor
  · intro k hd hk
    by_cases heq : k = h
    · subst heq
      rw [List.getElem?_set, if_pos rfl] at hk
      split at hk
      · cases hk
        rw [Function.update_self]
        exact hh hd rfl
      · cases hk
    · rw [List.getElem?_set_ne (Ne.symm heq)] at hk
      rw [Function.update_of_ne heq]
      exact hR.handlers k hd hk
  · intro hlt k hk
    rw [List.length_set] at hk
    rw [Function.update_of_ne (by omega)]
    exact hR.free k hk

/-- A handler of the stack goes on. -/
theorem Refines.goto (hhd : S.handlers[h]? = some (some hd)) (pc : HandlerPc α ρ) :
    Refines host m Rel (S.goto h hd pc) (net.goto h ⟨S.inst hd.server, hd.op, hd.pc⟩ pc) := by
  obtain ⟨hset, hfree⟩ := hR.handlers_set h (some { hd with pc })
    (some ⟨S.inst hd.server, hd.op, pc⟩) fun hd' heq => by cases heq; rfl
  exact { hR with
    handlers := hset, free := hfree (List.getElem?_eq_some_iff.1 hhd).1 }

/-- A handler of the stack returns. -/
theorem Refines.dropHandler (hhd : S.handlers[h]? = some (some hd)) :
    Refines host m Rel (S.setHandler h none) (net.setHandler h none) := by
  obtain ⟨hset, hfree⟩ := hR.handlers_set h none none
    fun hd' heq => by cases heq
  exact { hR with
    handlers := hset, free := hfree (List.getElem?_eq_some_iff.1 hhd).1 }

/-- A handler replies. -/
theorem Refines.addReply {id : Int × Int} {res : ρ} (source : ReplySource) :
    Refines host m Rel { S with replies := S.replies ++ [(id, res)] }
      { net with replies := net.replies ++ [⟨id, res, source⟩] } :=
  { hR with
    replies := by
      rw [List.map_append, hR.replies]
      rfl }

/-- What is done to a server does not touch the incarnations to come. -/
theorem Refines.unused_update {sv : ServiceServer σ} (j : Fin n) (e : Nat)
    (he : (S.group.cluster.servers j).epoch < e) :
    Function.update net.servers (S.inst i) sv (incarnation e j) = { store := m.init } := by
  rw [Function.update_of_ne]
  · exact hR.unused j e he
  · intro heq
    obtain ⟨rfl, rfl⟩ := incarnation_inj.1 heq
    exact absurd he (Nat.lt_irrefl _)

/-- The slots of a server change. -/
theorem Refines.setSlots (slots : GoMap Nat Nat) :
    Refines host m Rel (S.setSlots i slots)
      (net.setServer (S.inst i) { net.servers (S.inst i) with waitChMap := slots }) := by
  refine { hR with
    server := Stack.forall_update (P := fun j sv => ServerRefines (S.raft j)
      (S.group.replicas j).applied (Function.update S.waitChMaps i slots j) sv) ?_ fun j hj => ?_
    unused := hR.unused_update }
  · have hi := hR.server i
    refine ⟨hi.applied, hi.term, hi.leader, ?_⟩
    rw [Function.update_self]
  · have hj' := hR.server j
    refine ⟨hj'.applied, hj'.term, hj'.leader, ?_⟩
    exact hj'.slots.trans (Function.update_of_ne hj ..).symm

/-- The buffer of a channel. -/
theorem Refines.chan_buffer {ch : Nat} {buffer : Option α} (hch : S.chans[ch]? = some buffer) :
    ∃ chan, net.chans[ch]? = some chan ∧ chan.buffer = buffer := by
  rw [← hR.chans, List.getElem?_map, Option.map_eq_some_iff] at hch
  exact hch

/-- A value is put into a channel, or taken from it. -/
theorem Refines.setChan (ch : Nat) (chan : WaitChannel α) (buffer : Option α) :
    Refines host m Rel { S with chans := S.chans.set ch buffer }
      { net with chans := net.chans.set ch { chan with buffer } } :=
  { hR with
    chans := by
      rw [List.map_set, hR.chans] }

/-- A channel is made. -/
theorem Refines.addChan (s index : Nat) :
    Refines host m Rel { S with chans := S.chans ++ [none] }
      { net with chans := net.chans ++ [⟨s, index, none⟩] } :=
  { hR with
    chans := by
      rw [List.map_append, hR.chans]
      rfl }

/-- There are as many channels in one as in the other. -/
theorem Refines.chans_length : net.chans.length = S.chans.length := by
  rw [← hR.chans, List.length_map]

/-- The state of the service on a server. -/
theorem Refines.rel (hinv : Service.Inv m net) (i : Fin n) :
    Rel (S.group.replicas i).state (S.group.replicas i).applied
      (net.servers (S.inst i)).store := by
  obtain ⟨s, hs, hrel⟩ := (hR.agree.replica i).state
  have hstore := (hinv.servers (S.inst i)).2
  rw [(hR.server i).applied, hs] at hstore
  cases hstore
  exact hrel

end

theorem events_record (net : Service σ κ α ρ) (e : HistoryEvent (Int × Int) κ ρ) :
    (net.record e).events = net.events ++ [e] :=
  List.map_append

/-- A host and its service have the same request numbers. -/
theorem ServiceHost.Implements.id_eq (himp : host.Implements m Rel) (op : κ) :
    host.id op = m.id op := by
  rw [ServiceHost.id, himp.clientId, himp.requestId, Machine.id]

section
variable [DecidableEq κ]

/-- The service takes some steps to a state that the stack refines. -/
def Matched (host : ServiceHost τ κ α ρ) (m : Machine σ κ α ρ) (Rel : τ → Nat → σ → Prop)
    (net : Service σ κ α ρ) (S' : Stack n τ κ α ρ) : Prop :=
  ∃ net', Reach (Service.step m) Always net net' ∧ Refines host m Rel S' net'

/-- The service takes one step. -/
theorem Matched.one {a : ServiceAction κ} (hst : net.step m a = some net')
    (hR : Refines host m Rel S' net') : Matched host m Rel net S' :=
  ⟨net', .step .init trivial hst, hR⟩

/-- The server of the service that stands for a new instance gets its snapshot and its term. -/
theorem reach_bringUp {s k : Nat} (term : Nat) {store : σ}
    (hsv : net.servers s = { store := m.init })
    (hstore : m.stateAt net.log k = some store) (hle : k ≤ net.log.length) :
    Reach (Service.step m) Always net (net.setServer s
      { store, applied := k, currentTerm := term, isLeader := false }) := by
  rcases Nat.eq_zero_or_pos k with rfl | hpos
  · cases hstore
    refine .step .init (e := .raft s term false) trivial ?_
    simp only [Service.step, hsv, Nat.zero_le, if_true]
  · refine .step (s := net.setServer s { store, applied := k })
      (.step .init (e := .install s k) trivial ?_) (e := .raft s term false) trivial ?_
    · simp only [Service.step, hsv, hstore, Option.bind_eq_bind, Option.bind_some]
      exact if_pos ⟨hpos, hle⟩
    · simp only [Service.step, Service.setServer, Function.update_self, Nat.zero_le, if_true,
        Function.update_idem]

variable (hR : Refines host m Rel S net)
include hR

/-- A handler looks whether it can answer at once. -/
theorem Refines.check (himp : host.Implements m Rel) (hinv : Service.Inv m net)
    (hhd : S.handlers[h]? = some (some hd))
    (hst : S.handle host h hd (.check h) = some S') : Matched host m Rel net S' := by
  obtain ⟨i, op, pc⟩ := hd
  cases pc with
  | checking =>
    have hnet := hR.handlers h _ hhd
    have hknown : host.known (S.group.replicas i).state op = _ := himp.known (hR.rel hinv i)
    simp only [Stack.handle, hknown] at hst
    split at hst
    · next res hres =>
      cases hst
      rw [himp.id_eq]
      refine .one (a := .check h) ?_ ((hR.dropHandler hhd).addReply
        (.known (net.servers (S.inst i)).applied))
      simp only [Service.step, Service.handle, hnet, Option.bind_some, hres]
      rfl
    · next hres =>
      cases hst
      refine .one (a := .check h) ?_ (hR.goto hhd .starting)
      simp only [Service.step, Service.handle, hnet, Option.bind_some, hres]
  | _ => cases hst

/-- A handler looks up its slot. -/
theorem Refines.slot (hhd : S.handlers[h]? = some (some hd))
    (hst : S.handle host h hd (.slot h) = some S') : Matched host m Rel net S' := by
  obtain ⟨i, op, pc⟩ := hd
  cases pc with
  | started index term =>
    have hnet := hR.handlers h _ hhd
    have hslots := (hR.server i).slots
    simp only [Stack.handle] at hst
    split at hst
    · next ch hch =>
      cases hst
      refine .one (a := .slot h) ?_ (hR.goto hhd (.waiting index term ch))
      simp only [Service.step, Service.handle, hnet, Option.bind_some, hslots, hch]
    · next hch =>
      cases hst
      have hR' := ((hR.setSlots (i := i) ((S.waitChMaps i).insert index S.chans.length)).goto hhd
        (.waiting index term S.chans.length)).addChan (S.inst i) index
      refine .one (a := .slot h) ?_ hR'
      simp only [Service.step, Service.handle, hnet, Option.bind_some, hslots, hch,
        hR.chans_length]
      rfl
  | _ => cases hst

/-- A handler takes a result from its channel. -/
theorem Refines.receive (hhd : S.handlers[h]? = some (some hd))
    (hst : S.handle host h hd (.receive h) = some S') : Matched host m Rel net S' := by
  obtain ⟨i, op, pc⟩ := hd
  cases pc with
  | waiting index term ch =>
    have hnet := hR.handlers h _ hhd
    simp only [Stack.handle, Option.bind_eq_bind, Option.bind_eq_some_iff] at hst
    obtain ⟨buffer, hch, res, rfl, heq⟩ := hst
    cases heq
    obtain ⟨chan, hchan, hbuffer⟩ := hR.chan_buffer hch
    refine .one (a := .receive h) ?_ ((hR.goto hhd (.received index term res)).setChan
      ch chan none)
    simp only [Service.step, Service.handle, hnet, Option.bind_some, Option.bind_eq_bind, hchan,
      hbuffer]
    rfl
  | _ => cases hst

/-- A handler has waited for too long. -/
theorem Refines.timeout (hhd : S.handlers[h]? = some (some hd))
    (hst : S.handle host h hd (.timeout h) = some S') : Matched host m Rel net S' := by
  obtain ⟨i, op, pc⟩ := hd
  cases pc with
  | waiting index term ch =>
    have hnet := hR.handlers h _ hhd
    cases hst
    refine .one (a := .timeout h) ?_ (hR.goto hhd (.leaving index none))
    simp only [Service.step, Service.handle, hnet, Option.bind_some]
  | _ => cases hst

/-- A handler asks whether it may use its result. -/
theorem Refines.confirm (himp : host.Implements m Rel) (hhd : S.handlers[h]? = some (some hd))
    (hst : S.handle host h hd (.confirm h) = some S') : Matched host m Rel net S' := by
  obtain ⟨i, op, pc⟩ := hd
  cases pc with
  | received index term res =>
    have hnet := hR.handlers h _ hhd
    have hserver := hR.server i
    have hcond : ((net.servers (S.inst i)).isLeader = true ∧
        (net.servers (S.inst i)).currentTerm = term) ↔
        (S.raft i).state = .leader ∧ (S.raft i).currentTerm = term := by
      rw [hserver.leader, hserver.term, decide_eq_true_iff]
    simp only [Stack.handle] at hst
    split at hst
    · next hleads =>
      cases hst
      rw [himp.reply]
      refine .one (a := .confirm h) ?_ (hR.goto hhd (.leaving index (some (m.reply op res))))
      simp only [Service.step, Service.handle, hnet, Option.bind_some]
      exact if_pos (hcond.2 hleads)
    · next hleads =>
      cases hst
      refine .one (a := .confirm h) ?_ (hR.goto hhd (.leaving index none))
      simp only [Service.step, Service.handle, hnet, Option.bind_some]
      exact if_neg fun hc => hleads (hcond.1 hc)
  | _ => cases hst

/-- A handler returns. -/
theorem Refines.finish (himp : host.Implements m Rel) (hhd : S.handlers[h]? = some (some hd))
    (hst : S.handle host h hd (.finish h) = some S') : Matched host m Rel net S' := by
  obtain ⟨i, op, pc⟩ := hd
  cases pc with
  | leaving index reply =>
    have hnet := hR.handlers h _ hhd
    have hslots := (hR.server i).slots
    have hR' := (hR.setSlots (i := i) ((S.waitChMaps i).erase index)).dropHandler hhd
    cases reply with
    | none =>
      cases hst
      refine .one (a := .finish h) ?_ hR'
      simp only [Service.step, Service.handle, hnet, Option.bind_some, hslots]
    | some res =>
      cases hst
      rw [himp.id_eq]
      refine .one (a := .finish h) ?_ (hR'.addReply (.logged (index - 1)))
      simp only [Service.step, Service.handle, hnet, Option.bind_some, hslots]
      rfl
  | _ => cases hst

/-- A clerk calls. -/
theorem Refines.call (himp : host.Implements m Rel) {op : κ}
    (hst : S.step host (.call op) = some S') :
    Matched host m Rel net S' := by
  simp only [Stack.step, himp.clientId, himp.requestId, himp.id_eq, ← hR.clerks] at hst
  split at hst
  · next hc =>
    cases hst
    refine .one (a := .call op) (if_pos hc) { hR with clerks := ?_, history := ?_ }
    · show Function.update net.clerks _ _ = Function.update S.clerks _ _
      rw [hR.clerks]
    · rw [events_record]
      exact congrArg (· ++ _) hR.history
  · cases hst

omit [DecidableEq κ] in
/-- The same operations are on their way. -/
theorem Refines.called_eq : net.called = S.called := by
  rw [Stack.called, ← hR.history, Service.events, List.filterMap_map]
  rfl

/-- A request arrives. -/
theorem Refines.request {op : κ} (hst : S.step host (.request i op) = some S') :
    Matched host m Rel net S' := by
  simp only [Stack.step, ← hR.called_eq] at hst
  split at hst
  · next hop =>
    cases hst
    have hfree := hR.free S.handlers.length (Nat.le_refl _)
    refine .one (a := .request S.handlers.length (S.inst i) op)
      (if_pos ⟨hop, by rw [hfree]; rfl⟩) { hR with handlers := ?_, free := ?_ }
    · intro k hd hk
      rcases of_getElem?_concat hk with hk | ⟨rfl, heq⟩
      · show Function.update net.handlers _ _ k = _
        rw [Function.update_of_ne (Nat.ne_of_lt (List.getElem?_eq_some_iff.1 hk).1)]
        exact hR.handlers k hd hk
      · cases heq
        exact Function.update_self ..
    · intro k hk
      have hk' : S.handlers.length + 1 ≤ k := by rwa [List.length_append] at hk
      show Function.update net.handlers _ _ k = none
      rw [Function.update_of_ne (by omega)]
      exact hR.free k (by omega)
  · cases hst

/-- A call returns. -/
theorem Refines.ret (himp : host.Implements m Rel) {j : Nat}
    (hst : S.step host (.ret j) = some S') :
    Matched host m Rel net S' := by
  simp only [Stack.step, himp.id_eq, Option.bind_eq_bind, Option.bind_eq_some_iff] at hst
  obtain ⟨⟨id, res⟩, hrep, op, hop, hst⟩ := hst
  rw [← hR.replies, List.getElem?_map, Option.map_eq_some_iff] at hrep
  obtain ⟨rep, hrep, heq⟩ := hrep
  cases heq
  split at hst
  · next hid =>
    cases hst
    refine .one (a := .ret j) (?_ : _ = some ((net.setClerk rep.id.1
      { requestId := (net.clerks rep.id.1).requestId + 1 }).record (.ret rep.id rep.res)))
      { hR with clerks := ?_, history := ?_ }
    · rw [← hR.clerks] at hop
      simp only [Service.step, hrep, Option.bind_eq_bind, Option.bind_some, hop]
      exact if_pos hid
    · show Function.update net.clerks _ _ = Function.update S.clerks _ _
      rw [hR.clerks]
    · rw [events_record]
      exact congrArg (· ++ _) hR.history
  · cases hst

/-! ## Raft -/

omit [DecidableEq κ] in
/-- The group changes below the handlers; `servers` and `starts` are what the service has then. -/
theorem Refines.setGroup {g : ReplicaGroup n τ κ} (servers : Nat → ServiceServer σ)
    (starts : List (Start κ)) (hagree : Agree host.toHost m Rel net.log g)
    (hepoch : ∀ i, (g.cluster.servers i).epoch = (S.group.cluster.servers i).epoch)
    (hstarts : ∀ st ∈ starts, ∃ i, .start i (some st.op) st.index st.term ∈ g.cluster.trace)
    (hstarted : ∀ i op index term, .start i (some op) index term ∈ g.cluster.trace →
      ∃ s, ⟨s, index, term, op⟩ ∈ starts)
    (hserver : ∀ i,
      ServerRefines (g.cluster.servers i).raft (g.replicas i).applied (S.waitChMaps i)
      (servers (S.inst i)))
    (hunused : ∀ i e, (S.group.cluster.servers i).epoch < e →
      servers (incarnation e i) = { store := m.init }) :
    Refines host m Rel (S.setGroup g) { net with servers, starts } := by
  have hinst : ∀ i, (S.setGroup g).inst i = S.inst i :=
    fun i => congrArg (fun e => incarnation e i) (hepoch i)
  refine { hR with
    agree := hagree, server := fun i => ?_, unused := fun i e he => ?_, starts := hstarts
    started := hstarted, handlers := fun h hd hhd => ?_ }
  · rw [hinst]
    exact hserver i
  · exact hunused i e (by rwa [← hepoch i])
  · rw [hinst]
    exact hR.handlers h hd hhd

omit [DecidableEq κ] in
/-- The servers that a step of the cluster does not start again. -/
theorem Refines.epoch_kept {a : Action n κ} {c' : Cluster n κ}
    (hst : S.group.cluster.step a = some c') (hrestart : ∀ grow, a ≠ .restart i grow) :
    (c'.servers i).epoch = (S.group.cluster.servers i).epoch := by
  obtain ⟨H, hs⟩ := hR.agree.quiet.exists_sim
  cases (step_cases hst).stream_step hs i with
  | kept _ _ _ hepoch | sent _ _ _ _ hepoch => exact hepoch
  | restarted grow ha => exact absurd ha (hrestart grow)

/-- A step of the cluster in which no operation is started and no server. -/
theorem Refines.clusterStep {g : ReplicaGroup n τ κ} {a : Action n κ}
    (hst : S.group.cluster.step a = some g.cluster)
    (hstart : ∀ i command grow, a ≠ .start i command grow)
    (hrestart : ∀ i grow, a ≠ .restart i grow) (hagree : Agree host.toHost m Rel net.log g)
    (happlied : ∀ i, (g.replicas i).applied = (S.group.replicas i).applied) :
    Matched host m Rel net (S.setGroup g) := by
  have hst' := step_cases hst
  have hepoch : ∀ i, (g.cluster.servers i).epoch = (S.group.cluster.servers i).epoch :=
    fun i => hR.epoch_kept hst (hrestart i)
  have hstarts : ∀ st ∈ net.starts, ∃ i,
      .start i (some st.op) st.index st.term ∈ g.cluster.trace := by
    intro st hmem
    obtain ⟨i, hi⟩ := hR.starts st hmem
    exact ⟨i, hst'.trace_subset hi⟩
  have hstarted : ∀ i op index term, .start i (some op) index term ∈ g.cluster.trace →
      ∃ s, ⟨s, index, term, op⟩ ∈ net.starts := by
    intro i op index term hmem
    rcases hst'.new_event hmem with hmem | hnew
    · exact hR.started i op index term hmem
    · cases hnew with
      | start => exact absurd rfl (hstart _ _ _)
  have hkept : ∀ i, (g.cluster.servers i).raft = (S.group.cluster.servers i).raft →
      ServerRefines (g.cluster.servers i).raft (g.replicas i).applied (S.waitChMaps i)
        (net.servers (S.inst i)) := by
    intro i hi
    rw [hi, happlied]
    exact hR.server i
  rcases hst'.raft_frame with hall | ⟨p, hp⟩
  · exact ⟨net, .init,
      hR.setGroup _ _ hagree hepoch hstarts hstarted (fun i => hkept i (hall i)) hR.unused⟩
  · refine .one (a := .raft (S.inst p) (g.cluster.servers p).raft.currentTerm
      (decide ((g.cluster.servers p).raft.state = .leader))) ?_
      (hR.setGroup (Function.update net.servers (S.inst p)
        { net.servers (S.inst p) with
          currentTerm := (g.cluster.servers p).raft.currentTerm
          isLeader := decide ((g.cluster.servers p).raft.state = .leader) })
        _ hagree hepoch hstarts hstarted ?_ hR.unused_update)
    · refine if_pos ?_
      rw [(hR.server p).term]
      exact currentTerm_le_of_step hR.agree.quiet.reach hst p
    · refine Stack.forall_update (P := fun i sv => ServerRefines (g.cluster.servers i).raft
        (g.replicas i).applied (S.waitChMaps i) sv) ?_ fun i hi => hkept i (hp i hi)
      refine ⟨?_, rfl, rfl, (hR.server p).slots⟩
      rw [happlied]
      exact (hR.server p).applied

/-- What happens below the handlers. -/
theorem Refines.group {a : GroupAction n κ} (hok : S.Orderly (.group a))
    (hst : S.step host (.group a) = some S') : Matched host m Rel net S' := by
  have happlied : ∀ (i : Fin n) (pc : ApplierPc κ) (j : Fin n),
      (Function.update S.group.replicas i { S.group.replicas i with pc } j).applied =
        (S.group.replicas j).applied := by
    intro i pc j
    by_cases hj : j = i
    · subst hj
      rw [Function.update_self]
    · rw [Function.update_of_ne hj]
  have hstep : ∃ g, S.group.step host.toHost a = some g ∧ S' = S.setGroup g := by
    cases a with
    | start | apply | restart => cases hst
    | _ =>
      obtain ⟨g, hg, rfl⟩ := Option.map_eq_some_iff.1 hst
      exact ⟨g, hg, rfl⟩
  obtain ⟨g, hg, rfl⟩ := hstep
  cases ReplicaGroup.step_cases hg with
  | start | apply | restart => cases hst
  | raft hint hc =>
    refine hR.clusterStep hc ?_ ?_ (hR.agree.raft hint hok hc) fun _ => rfl
    · rintro i command grow rfl
      cases hint
    · rintro i grow rfl
      cases hint
  | sendCommand hpc hc hmsg =>
    exact hR.clusterStep hc (fun _ _ _ h => by cases h) (fun _ _ h => by cases h)
      (hR.agree.receive (.inl rfl) hpc hok hc hmsg) (happlied _ _)
  | sendSnapshot hpc hc hmsg =>
    exact hR.clusterStep hc (fun _ _ _ h => by cases h) (fun _ _ h => by cases h)
      (hR.agree.receive (.inr ⟨_, rfl⟩) hpc hok hc hmsg) (happlied _ _)
  | snapshot hpc hb hc =>
    exact hR.clusterStep hc (fun _ _ _ h => by cases h) (fun _ _ h => by cases h)
      (hR.agree.snapshot hpc hb hc) (happlied _ _)
  | proceed hpc =>
    refine ⟨net, .init, hR.setGroup _ _ (hR.agree.proceed hpc) (fun _ => rfl) hR.starts hR.started
      (fun i => ?_) hR.unused⟩
    show ServerRefines _ (Function.update S.group.replicas _ _ i).applied _ _
    rw [happlied]
    exact hR.server i

omit [DecidableEq κ] in
/-- What the service assumes of a `Start` holds. -/
theorem Refines.mayStart {op : κ} {grow index term : Nat} {rf : Raft n κ} {c' : Cluster n κ}
    (hr : (S.raft i).start (some op) grow = some (rf, some (index, term)))
    (hc : S.group.cluster.step (.start i (some op) grow) = some c') :
    term = (S.raft i).currentTerm ∧ (S.raft i).state = .leader ∧
      net.MayStart (net.servers (S.inst i)) op index := by
  obtain ⟨hlt, hterm, hleader⟩ := hR.agree.quiet.received_lt_start hr
  have hserver := hR.server i
  refine ⟨hterm, hleader, ?_, fun e he heterm => ?_⟩
  · rw [hserver.applied]
    exact (hR.agree.replica i).applied_le.trans_lt hlt
  · -- the entry was started under the same index and term
    have hpos : 0 < index := Nat.zero_lt_of_lt hlt
    have hst' := step_cases hc
    obtain ⟨j, hj⟩ := hR.agree.logged _ e he
    rw [Nat.sub_add_cancel hpos, heterm, hserver.term] at hj
    have hquiet := (hR.agree.start hc).quiet
    obtain ⟨_, k, hk⟩ := hR.agree.quiet.started hj
    have hnew : .start i (some op) index term ∈ c'.trace := by
      rw [of_start_accepted hr hc]
      exact List.mem_append_right _ (List.mem_singleton_self _)
    rw [hterm] at hnew
    exact Option.some.inj (hquiet.start_unique (hst'.trace_subset hk) hnew)

/-- A handler calls `rf.Start`. -/
theorem Refines.start {grow : Nat} (hhd : S.handlers[h]? = some (some hd))
    (hst : S.handle host h hd (.start h grow) = some S') : Matched host m Rel net S' := by
  obtain ⟨i, op, pc⟩ := hd
  cases pc with
  | starting =>
    have hnet := hR.handlers h _ hhd
    have hserver := hR.server i
    simp only [Stack.handle, Option.bind_eq_bind, Option.bind_eq_some_iff, Prod.exists] at hst
    obtain ⟨rf, result, hr, g, hg, hst⟩ := hst
    obtain ⟨c', hc, rfl⟩ := Option.map_eq_some_iff.1 hg
    cases result with
    | none =>
      obtain ⟨hstate, hsame⟩ := of_start_refused hr
      rw [hsame] at hc
      cases hc
      cases hst
      refine .one (a := .start h 0) ?_ (hR.dropHandler hhd)
      simp only [Service.step, Service.handle, hnet, Option.bind_some]
      refine if_pos ?_
      rw [hserver.leader, decide_eq_true_iff]
      exact hstate
    | some result =>
      obtain ⟨index, term⟩ := result
      cases hst
      have hst' := step_cases hc
      obtain ⟨hterm, hleader, hmay⟩ := hR.mayStart hr hc
      have htrace := of_start_accepted hr hc
      have hR' := hR.setGroup net.servers
        (net.starts ++ [⟨S.inst i, index, term, op⟩]) (hR.agree.start hc)
        (fun j => hR.epoch_kept hc fun _ ha => by cases ha) ?_ ?_ (fun j => ?_) hR.unused
      · refine .one (a := .start h index) ?_ (hR'.goto hhd (.started index term))
        have hinst : (S.setGroup (S.group.setCluster c')).inst i = S.inst i :=
          congrArg (fun e => incarnation e i) (hR.epoch_kept hc fun _ ha => by cases ha)
        simp only [Service.step, Service.handle, hnet, Option.bind_some]
        rw [if_neg, if_pos hmay]
        · rw [hserver.term, ← hterm, hinst]
          rfl
        · rw [hserver.leader, decide_eq_true_iff]
          exact not_not_intro hleader
      · intro st hmem
        rcases List.mem_append.1 hmem with hmem | hmem
        · obtain ⟨j, hj⟩ := hR.starts st hmem
          exact ⟨j, hst'.trace_subset hj⟩
        · cases List.mem_singleton.1 hmem
          exact ⟨i, htrace ▸ List.mem_append_right _ (List.mem_singleton_self _)⟩
      · intro j op' index' term' hmem
        rw [show (S.group.setCluster c').cluster.trace = _ from htrace] at hmem
        rcases List.mem_append.1 hmem with hmem | hmem
        · obtain ⟨s, hs⟩ := hR.started j op' index' term' hmem
          exact ⟨s, List.mem_append_left _ hs⟩
        · cases List.mem_singleton.1 hmem
          exact ⟨_, List.mem_append_right _ (List.mem_singleton_self _)⟩
      · obtain ⟨hterm, hstate⟩ := hR.agree.quiet.start_kept hst' j
        have hj := hR.server j
        refine ⟨hj.applied, hj.term.trans hterm.symm, ?_, hj.slots⟩
        rw [hj.leader]
        exact congrArg (fun state => decide (state = RuleState.leader)) hstate.symm
  | _ => cases hst

/-! ## The applier -/

/-- The entry that the applier has received is in the log of the service, or is appended now. -/
theorem Refines.commit {command : Option κ} {index term : Nat}
    (hpc : (S.group.replicas i).pc = .received (.command command index term)) :
    ∃ op net', Reach (Service.step m) Always net net' ∧ Refines host m Rel S net' ∧
      command = some op ∧ index = (S.group.replicas i).applied + 1 ∧
      net'.log[(S.group.replicas i).applied]? = some ⟨term, op⟩ := by
  obtain ⟨op, log, rfl, rfl, hagree, hentry, rfl | ⟨rfl, hlen⟩⟩ := hR.agree.exists_entry hpc
  · exact ⟨op, net, .init, hR, rfl, rfl, hentry⟩
  have hok := (hR.agree.replica i).pc
  rw [hpc] at hok
  obtain ⟨_, j, hj⟩ := hR.agree.quiet.started hok.2.1
  obtain ⟨s, hs⟩ := hR.started j op _ _ hj
  obtain ⟨k, hk⟩ := List.getElem?_of_mem hs
  refine ⟨op, { net with log := net.log ++ [⟨term, op⟩] }, .step .init (e := .commit k) trivial ?_,
    { hR with agree := hagree }, rfl, rfl, hentry⟩
  simp only [Service.step, hk, Option.bind_eq_bind, Option.bind_some]
  refine if_pos ⟨by rw [hlen], fun st hst hindex hterm => ?_⟩
  obtain ⟨k, hk⟩ := hR.starts st hst
  rw [hindex, hterm] at hk
  exact Option.some.inj (hR.agree.quiet.start_unique hk hj)

omit [DecidableEq κ] in
/-- The applier wakes up the handler that waits for an index. -/
theorem Refines.notifyWaitCh {index : Nat} {a : α} (hst : S.notifyWaitCh i index a = some S') :
    ∃ net', net.notifyWaitCh (S.inst i) index a = some net' ∧ Refines host m Rel S' net' := by
  have hslots := (hR.server i).slots
  unfold Stack.notifyWaitCh at hst
  split at hst
  · next ch hch =>
    simp only [Option.bind_eq_bind, Option.bind_eq_some_iff] at hst
    obtain ⟨buffer, hbuffer, hst⟩ := hst
    split at hst
    · cases hst
    · next hempty =>
      cases hst
      obtain ⟨chan, hchan, rfl⟩ := hR.chan_buffer hbuffer
      refine ⟨_, ?_, hR.setChan ch chan (some a)⟩
      simp only [Service.notifyWaitCh, hslots, hch, hchan, Option.bind_eq_bind, Option.bind_some]
      exact if_neg hempty
  · next hch =>
    cases hst
    refine ⟨net, ?_, hR⟩
    simp only [Service.notifyWaitCh, hslots, hch]

omit [DecidableEq κ] in
/-- The applier of server `i` has changed its state. -/
theorem Refines.setReplica {r : Replica τ κ} (store : σ)
    (hagree : Agree host.toHost m Rel net.log (S.group.setReplica i r)) :
    Refines host m Rel (S.setGroup (S.group.setReplica i r)) (net.setServer (S.inst i)
      { net.servers (S.inst i) with store, applied := r.applied }) := by
  refine hR.setGroup _ _ hagree (fun _ => rfl) hR.starts hR.started ?_ hR.unused_update
  refine Stack.forall_update (P := fun j sv => ServerRefines (S.raft j)
    (Function.update S.group.replicas i r j).applied (S.waitChMaps j) sv) ?_ fun j hj => ?_
  · have hi := hR.server i
    refine ⟨?_, hi.term, hi.leader, hi.slots⟩
    rw [Function.update_self]
  · rw [Function.update_of_ne hj]
    exact hR.server j

/-- The applier executes a command. -/
theorem Refines.applyCommand (himp : host.Implements m Rel) (hinv : Service.Inv m net) {op : κ}
    {term : Nat} {state : τ} {res : Option α}
    (hpc : (S.group.replicas i).pc =
      .received (.command (some op) ((S.group.replicas i).applied + 1) term))
    (happ : host.applier (S.group.replicas i).state
      (.command (some op) ((S.group.replicas i).applied + 1) term) = some (state, res))
    (hentry : net.log[(S.group.replicas i).applied]? = some ⟨term, op⟩)
    (hst : S.applier host i = some S') : Matched host m Rel net S' := by
  obtain ⟨s, s', a, rfl, hs, hexec, hagree⟩ :=
    hR.agree.apply_command himp.toImplements hpc happ hentry
  have hserver := hR.server i
  have hR' := hR.setReplica s' hagree
  have hstore : (net.servers (S.inst i)).store = s := by
    have hinv' := (hinv.servers (S.inst i)).2
    rw [hserver.applied, hs] at hinv'
    exact (Option.some.inj hinv').symm
  have hcond : ((net.servers (S.inst i)).isLeader = true ∧
      term = (net.servers (S.inst i)).currentTerm) ↔
      (S.raft i).state = .leader ∧ term = (S.raft i).currentTerm := by
    rw [hserver.leader, hserver.term, decide_eq_true_iff]
  have hnet : ∀ net', (if (net.servers (S.inst i)).isLeader = true ∧
        term = (net.servers (S.inst i)).currentTerm then
      (net.setServer (S.inst i) { net.servers (S.inst i) with
        store := s', applied := (S.group.replicas i).applied + 1 }).notifyWaitCh (S.inst i)
          ((S.group.replicas i).applied + 1) a
      else some (net.setServer (S.inst i) { net.servers (S.inst i) with
        store := s', applied := (S.group.replicas i).applied + 1 })) = some net' →
      net.step m (.apply (S.inst i)) = some net' := by
    intro net' hnet'
    rw [← hserver.applied] at hentry
    simp only [Service.step, Service.applier, hentry, hstore, hexec, Option.bind_eq_bind,
      Option.bind_some]
    rw [hserver.applied]
    exact hnet'
  simp only [Stack.applier, ReplicaGroup.apply, hpc, happ, Option.bind_eq_bind, Option.bind_some,
    Option.pure_def, Option.isSome_some, if_true, ApplyMsg.index,
    Nat.max_eq_right (Nat.le_add_right _ 1)] at hst
  split at hst
  · next hleads =>
    obtain ⟨net', hnotify, hR''⟩ := hR'.notifyWaitCh hst
    refine .one (hnet net' ?_) hR''
    rw [if_pos (hcond.2 hleads)]
    exact hnotify
  · next hleads =>
    cases hst
    refine .one (hnet _ ?_) hR'
    rw [if_neg fun hc => hleads (hcond.1 hc)]

/-- The applier installs a snapshot. -/
theorem Refines.applySnapshot (himp : host.Implements m Rel) {b : Bytes} {term index : Nat}
    {state : τ} {res : Option α}
    (hpc : (S.group.replicas i).pc = .received (.snapshot b term index))
    (happ : host.applier (S.group.replicas i).state (.snapshot b term index) = some (state, res))
    (hst : S.applier host i = some S') : Matched host m Rel net S' := by
  obtain ⟨rfl, hlt, hle, hagree⟩ := hR.agree.apply_snapshot himp.toImplements hpc happ
  obtain ⟨store, hstore, _⟩ := (hagree.replica i).state
  rw [show (S.group.setReplica i _).replicas i = _ from Function.update_self ..] at hstore
  simp only [Stack.applier, ReplicaGroup.apply, hpc, happ, Option.bind_eq_bind, Option.bind_some,
    Option.isSome_none, ApplyMsg.index, Nat.max_eq_right hlt.le] at hst
  cases hst
  refine .one (a := .install (S.inst i) index) ?_ (hR.setReplica store hagree)
  simp only [Service.step, hstore, Option.bind_eq_bind, Option.bind_some]
  refine if_pos ⟨?_, hle⟩
  rw [(hR.server i).applied]
  exact hlt

/-- The applier deals with a message. -/
theorem Refines.apply (himp : host.Implements m Rel) (hinv : Service.Inv m net)
    (hst : S.applier host i = some S') : Matched host m Rel net S' := by
  have hst' := hst
  simp only [Stack.applier, Option.bind_eq_bind, Option.bind_eq_some_iff, Prod.exists] at hst'
  obtain ⟨g, res, happly, _⟩ := hst'
  obtain ⟨msg, state, hpc, happ, _⟩ := ReplicaGroup.apply_cases happly
  cases msg with
  | command command index term =>
    obtain ⟨op, net₁, hreach, hR₁, rfl, rfl, hentry⟩ := hR.commit hpc
    have hinv₁ : Service.Inv m net₁ :=
      hreach.invariant hinv fun h _ hst => h.step (Service.step_cases hst)
    obtain ⟨net₂, hreach₂, hR₂⟩ := hR₁.applyCommand himp hinv₁ hpc happ hentry hst
    exact ⟨net₂, hreach.trans hreach₂, hR₂⟩
  | snapshot b term index => exact hR.applySnapshot himp hpc happ hst

omit [DecidableEq κ] in
/-- The channel in the slot of the next index is empty: what is in a channel was sent when its
index was executed. -/
theorem Refines.exists_notifyWaitCh (hinv : Service.Inv m net) (g : ReplicaGroup n τ κ) (a : α) :
    ∃ S', (S.setGroup g).notifyWaitCh i ((S.group.replicas i).applied + 1) a = some S' := by
  have hserver := hR.server i
  simp only [Stack.notifyWaitCh, Stack.setGroup]
  split
  · next ch hch =>
    rw [← hserver.slots] at hch
    obtain ⟨chan, hchan, hmade, hindex⟩ := hinv.slots _ _ _ hch
    have hbuffer : S.chans[ch]? = some chan.buffer := by
      rw [← hR.chans, List.getElem?_map, hchan]
      rfl
    have hempty : chan.buffer = none := by
      cases hres : chan.buffer with
      | none => rfl
      | some res =>
        have hsent := hinv.chans chan (List.mem_of_getElem? hchan) res hres
        rw [hindex, hmade] at hsent
        cases hsent with
        | mk _ happlied =>
          rw [hserver.applied] at happlied
          exact absurd happlied (Nat.lt_irrefl _)
    rw [hbuffer, hempty]
    exact ⟨_, rfl⟩
  · exact ⟨_, rfl⟩

omit [DecidableEq κ] in
/-- A command that the applier has received was called by a clerk. -/
theorem Refines.received_called (hinv : Service.Inv m net) {command : Option κ} {index term : Nat}
    (hpc : (S.group.replicas i).pc = .received (.command command index term)) :
    ∃ op, command = some op ∧ .call (m.id op) op ∈ S.history := by
  obtain ⟨op, _, rfl, -⟩ := hR.agree.exists_entry hpc
  have hok := (hR.agree.replica i).pc
  rw [hpc] at hok
  obtain ⟨_, j, hj⟩ := hR.agree.quiet.started hok.2.1
  obtain ⟨s, hs⟩ := hR.started j op _ _ hj
  obtain ⟨t, hcall⟩ := (hinv.starts _ hs).1
  exact ⟨op, rfl, hR.history ▸ List.mem_map_of_mem hcall⟩

omit [DecidableEq κ] in
/-- The applier does not wait in `notifyWaitCh`: it deals with a message if the code does not
panic. -/
theorem Refines.exists_applier (hinv : Service.Inv m net) {msg : ApplyMsg κ}
    (hpc : (S.group.replicas i).pc = .received msg)
    (hmsg : (host.applier (S.group.replicas i).state msg).isSome) :
    ∃ S', S.applier host i = some S' := by
  obtain ⟨⟨state, res⟩, happ⟩ := Option.isSome_iff_exists.1 hmsg
  simp only [Stack.applier, ReplicaGroup.apply, hpc, happ, Option.bind_eq_bind, Option.bind_some,
    Option.pure_def]
  split
  · next index term a heq =>
    cases heq
    split
    · obtain ⟨_, _, _, hindex, _⟩ := hR.agree.exists_entry hpc
      rw [hindex]
      exact hR.exists_notifyWaitCh hinv _ a
    · exact ⟨_, rfl⟩
  · exact ⟨_, rfl⟩

/-! ## Restarts -/

omit [DecidableEq κ] in
/-- A restart changes no other server, and makes this one a follower that has received nothing. -/
theorem Refines.restarted {grow : Nat} {c' : Cluster n κ}
    (hc : S.group.cluster.step (.restart i grow) = some c') :
    (c'.servers i).epoch = (S.group.cluster.servers i).epoch + 1 ∧
      (c'.servers i).raft.state = .follower ∧ ∀ j, j ≠ i →
        c'.servers j = S.group.cluster.servers j := by
  have hst := step_cases hc
  obtain ⟨H, hs⟩ := hR.agree.quiet.exists_sim
  refine ⟨?_, (restart_kept hs hst).2.2, ?_⟩
  · cases hst.stream_step hs i with
    | kept hne => exact absurd rfl hne
    | sent _ ha => rcases ha with ha | ⟨k, ha⟩ <;> cases ha
    | restarted _ _ _ _ hepoch => exact hepoch
  · cases hst with
    | restart => exact fun j hj => Function.update_of_ne hj ..

/-- A server crashes and starts again. -/
theorem Refines.restart (himp : host.Implements m Rel) {grow : Nat}
    (hst : S.step host (.restart i grow) = some S') : Matched host m Rel net S' := by
  simp only [Stack.step, Option.bind_eq_bind, Option.bind_eq_some_iff] at hst
  obtain ⟨g, hg, hst⟩ := hst
  cases hst
  cases ReplicaGroup.step_cases hg with
  | @restart _ _ c' hc =>
    have hst' := step_cases hc
    have hagree := hR.agree.restart himp.toImplements hc
    obtain ⟨hepoch, hstate, hother⟩ := hR.restarted hc
    obtain ⟨hle, ⟨store, hstore, _⟩, _⟩ := hagree.replica i
    simp only [ReplicaGroup.setCluster, ReplicaGroup.setReplica, Function.update_self]
      at hle hstore
    have hfresh := hR.unused i ((S.group.cluster.servers i).epoch + 1) (Nat.lt_succ_self _)
    refine ⟨_, reach_bringUp (c'.servers i).raft.currentTerm hfresh hstore hle, ?_⟩
    have hinst : ∀ j, j ≠ i → incarnation (c'.servers j).epoch j = S.inst j :=
      fun j hj => congrArg (fun sv => incarnation sv.epoch j) (hother j hj)
    have hne : ∀ {j : Fin n} {e : Nat}, j ≠ i →
        incarnation e j ≠ incarnation ((S.group.cluster.servers i).epoch + 1) i :=
      fun hj heq => hj (incarnation_inj.1 heq).2
    refine { hR with
      agree := hagree, server := fun j => ?_, unused := fun j e he => ?_, starts :=
        fun st hmem => ?_
      started := fun j op index term hmem => ?_, handlers := fun h hd hhd => ?_
      free := fun h hh => hR.free h (by rwa [Stack.dropHandlers, List.length_map] at hh) }
    · by_cases hj : j = i
      · subst hj
        show ServerRefines (c'.servers j).raft (Function.update S.group.replicas j _ j).applied
          (Function.update S.waitChMaps j ∅ j)
          (Function.update net.servers _ _ (incarnation (c'.servers j).epoch j))
        rw [hepoch, Function.update_self, Function.update_self, Function.update_self]
        exact ⟨rfl, rfl, by rw [hstate]; rfl, rfl⟩
      · show ServerRefines (c'.servers j).raft (Function.update S.group.replicas i _ j).applied
          (Function.update S.waitChMaps i ∅ j)
          (Function.update net.servers _ _ (incarnation (c'.servers j).epoch j))
        rw [Function.update_of_ne (hne hj), Function.update_of_ne hj, Function.update_of_ne hj,
          hinst j hj, hother j hj]
        exact hR.server j
    · have he' : (c'.servers j).epoch < e := he
      show Function.update net.servers _ _ (incarnation e j) = _
      by_cases hj : j = i
      · subst hj
        rw [hepoch] at he'
        rw [Function.update_of_ne fun heq => he'.ne' (incarnation_inj.1 heq).1]
        exact hR.unused j e (by omega)
      · rw [Function.update_of_ne (hne hj)]
        rw [hother j hj] at he'
        exact hR.unused j e he'
    · obtain ⟨j, hj⟩ := hR.starts st hmem
      exact ⟨j, hst'.trace_subset hj⟩
    · rcases hst'.new_event hmem with hmem | hnew
      · exact hR.started j op index term hmem
      · cases hnew
    · -- a handler that is left is on another server
      have hhd' : (S.handlers.map fun hd => hd.filter (·.server ≠ i))[h]? = some (some hd) := hhd
      rw [List.getElem?_map, Option.map_eq_some_iff] at hhd'
      obtain ⟨hd₀, hh, hfilter⟩ := hhd'
      obtain ⟨rfl, hserver⟩ := Option.filter_eq_some_iff.1 hfilter
      rw [decide_eq_true_iff] at hserver
      show net.handlers h = some ⟨incarnation (c'.servers hd.server).epoch hd.server, hd.op, hd.pc⟩
      rw [hinst _ hserver]
      exact hR.handlers h hd hh

/-! ## Runs -/

/-- Every orderly step of the stack is matched by steps of the service. -/
theorem Refines.step (himp : host.Implements m Rel) (hinv : Service.Inv m net)
    {a : StackAction n κ}
    (hok : S.Orderly a) (hst : S.step host a = some S') : Matched host m Rel net S' := by
  have hhandler : ∀ {h : Nat} {a : StackAction n κ},
      (S.handlers[h]?.join.bind fun hd => S.handle host h hd a) = some S' →
      ∃ hd, S.handlers[h]? = some (some hd) ∧ S.handle host h hd a = some S' := by
    intro h a hst
    obtain ⟨hd, hhd, hst⟩ := Option.bind_eq_some_iff.1 hst
    exact ⟨hd, Option.join_eq_some_iff.1 hhd, hst⟩
  cases a with
  | call op => exact hR.call himp hst
  | request i op => exact hR.request hst
  | check h =>
    obtain ⟨hd, hhd, hst⟩ := hhandler hst
    exact hR.check himp hinv hhd hst
  | start h grow =>
    obtain ⟨hd, hhd, hst⟩ := hhandler hst
    exact hR.start hhd hst
  | slot h =>
    obtain ⟨hd, hhd, hst⟩ := hhandler hst
    exact hR.slot hhd hst
  | receive h =>
    obtain ⟨hd, hhd, hst⟩ := hhandler hst
    exact hR.receive hhd hst
  | timeout h =>
    obtain ⟨hd, hhd, hst⟩ := hhandler hst
    exact hR.timeout hhd hst
  | confirm h =>
    obtain ⟨hd, hhd, hst⟩ := hhandler hst
    exact hR.confirm himp hhd hst
  | finish h =>
    obtain ⟨hd, hhd, hst⟩ := hhandler hst
    exact hR.finish himp hhd hst
  | ret j => exact hR.ret himp hst
  | apply i => exact hR.apply himp hinv hst
  | restart i grow => exact hR.restart himp hst
  | group a => exact hR.group hok hst

end

section
variable [DecidableEq κ]

/-- The service goes on as the stack does. -/
theorem Refines.run (himp : host.Implements m Rel) (hR : Refines host m Rel S net)
    (hinv : Service.Inv m net) (h : Reach (Stack.step host) Stack.Orderly S S') :
    ∃ net', Reach (Service.step m) Always net net' ∧ Refines host m Rel S' net' ∧
      Service.Inv m net' := by
  refine h.simulates (R := fun S net => Refines host m Rel S net ∧ Service.Inv m net) ⟨hR, hinv⟩ ?_
  intro S S' a net _ hR hok hst
  obtain ⟨net', hreach, hR'⟩ := hR.1.step himp hR.2 hok hst
  exact ⟨net', hreach, hR', hreach.invariant hR.2 fun h _ hst => h.step (Service.step_cases hst)⟩

/-- Every orderly run of a service on `raft.go` is a run of the service over the assumed Raft. -/
theorem exists_refines (himp : host.Implements m Rel)
    (h : Reach (Stack.step host) Stack.Orderly (.init host) S) :
    ∃ net, Refines host m Rel S net ∧ Service.Inv m net := by
  obtain ⟨net, -, hR⟩ := (refines_init himp).run himp Service.inv_init h
  exact ⟨net, hR⟩

/-- The log only grows. -/
theorem log_grown (h : Reach (Service.step m) Always net net') : net.log <+: net'.log := by
  refine h.invariant (P := fun net' => net.log <+: net'.log) (List.prefix_refl _) ?_
  intro net₁ net₂ a hgrown _ hst
  exact hgrown.trans (Service.grows_step (Service.step_cases hst)).log

/-- Two moments of an orderly run. -/
theorem exists_refines_later (himp : host.Implements m Rel)
    (h : Reach (Stack.step host) Stack.Orderly (.init host) S)
    (hlater : Reach (Stack.step host) Stack.Orderly S S') :
    ∃ net net', net.log <+: net'.log ∧ Refines host m Rel S net ∧ Service.Inv m net ∧
      Refines host m Rel S' net' ∧ Service.Inv m net' := by
  obtain ⟨net, hR, hinv⟩ := exists_refines himp h
  obtain ⟨net', hreach, hR', hinv'⟩ := hR.run himp hinv hlater
  exact ⟨net, net', log_grown hreach, hR, hinv, hR', hinv'⟩

end

end

end DistLabs
