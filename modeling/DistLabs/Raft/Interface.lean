import DistLabs.Raft.Provenance
import DistLabs.Raft.Stream

/-!
# What Raft offers to a service

A service sees of Raft the messages on `applyChan`, what `Start` returns and what is in the
`Persister` when it is started again. `Quiet` collects what the runs are known to keep in which no
replication goroutine sends after its server entered a later term and sends on `applyChan` are in
order; the lemmas below say what a service may rely on in such a run. `StreamStep` says what a step
does to the stream of messages that one server's service receives.
-/

namespace DistLabs

open Lib Chronicle

variable {n : Nat} {α : Type} {m : Mode} {H : Chron n α} {c c' : Cluster n α} {a : Action n α}
  {i j : Fin n}

/-! ## The stream of messages -/

/-- The action sends a message to the service of server `i`, or starts it again. -/
def Action.Reaches (i : Fin n) : Action n α → Prop
  | .sendCommand j | .sendSnapshot j _ | .restart j _ => j = i
  | _ => False

/-- What an action does to the messages that the service of server `i` receives. -/
inductive StreamStep (trace : List (Event n α)) (a : Action n α) (i : Fin n)
    (s s' : Server n α) : Prop
  | kept (hne : ¬ a.Reaches i) (hdel : s'.delivered = s.delivered)
      (hstart : s'.startIndex = s.startIndex) (hepoch : s'.epoch = s.epoch)
  | sent (msg : ApplyMsg α) (ha : a = .sendCommand i ∨ ∃ k, a = .sendSnapshot i k)
      (hdel : s'.delivered = s.delivered ++ [msg]) (hstart : s'.startIndex = s.startIndex)
      (hepoch : s'.epoch = s.epoch) (htrace : .apply i msg ∈ trace)
  | restarted (g : Nat) (ha : a = .restart i g) (hdel : s'.delivered = [])
      (hstart : s'.startIndex = (sentinel s'.raft.log).index) (hepoch : s'.epoch = s.epoch + 1)

/-- A heartbeat has no part in the stream of messages. -/
theorem runHeartBeats_stream (s : Server n α) (i : Fin n) :
    (s.runHeartBeats i).delivered = s.delivered ∧ (s.runHeartBeats i).startIndex = s.startIndex ∧
      (s.runHeartBeats i).epoch = s.epoch := by
  rw [Server.runHeartBeats]
  split <;> exact ⟨rfl, rfl, rfl⟩

/-- Every step is one of these for every server. -/
theorem Step.stream_step (hst : Step c a c') (hs : Sim m H c) (i : Fin n) :
    StreamStep c'.trace a i (c.servers i) (c'.servers i) := by
  have hset : ∀ {p : Fin n} {s' : Server n α}, c'.servers = Function.update c.servers p s' →
      (∀ q, q ≠ p → ¬ a.Reaches q) → StreamStep c'.trace a p (c.servers p) s' →
      StreamStep c'.trace a i (c.servers i) (c'.servers i) := fun hserv hne hp =>
    forall_servers_update (P := fun i s => StreamStep c'.trace a i (c.servers i) s) hserv hp
      (fun q hq => .kept (hne q hq) rfl rfl rfl) i
  cases hst with
  | startRefused | loseVote | loseAppend | loseSnap => exact .kept id rfl rfl rfl
  | @heartBeat j =>
    obtain ⟨hdel, hstart, hepoch⟩ := runHeartBeats_stream (c.servers j) j
    exact hset rfl (fun _ _ => id) (.kept id hdel hstart hepoch)
  | @start j _ _ _ _ raft =>
    obtain ⟨hdel, hstart, hepoch⟩ :=
      runHeartBeats_stream ({ c.servers j with raft } : Server n α) j
    exact hset rfl (fun _ _ => id) (.kept id hdel hstart hepoch)
  | requestVoteReply _ _ _ hr | elected _ _ _ hr =>
    refine hset rfl (fun _ _ => id) ?_
    rcases handleVoteReply_cases hr with
      ⟨rfl, _⟩ | ⟨_, _, ⟨_, ⟨rfl, _⟩ | ⟨_, _, _, rfl, _⟩⟩ | ⟨_, rfl, _⟩⟩ <;>
    exact .kept id rfl rfl rfl
  | @sendCommand j e =>
    exact hset rfl (fun _ hq h => hq h.symm) (.sent _ (.inl rfl) rfl rfl rfl
      (List.mem_append_right _ (List.mem_singleton_self _)))
  | @sendSnapshot j k x =>
    exact hset rfl (fun _ hq h => hq h.symm) (.sent _ (.inr ⟨k, rfl⟩) rfl rfl rfl
      (List.mem_append_right _ (List.mem_singleton_self _)))
  | @restart j g s' hr =>
    obtain ⟨rf, first, hrf, hfirst, rfl⟩ := exists_of_make hr
    obtain ⟨hok, _⟩ := make_ok hs.ok hs.indexed (hs.raft j) hrf
    rw [hok.log.getFirstIndex] at hfirst
    exact hset rfl (fun _ hq h => hq h.symm)
      (.restarted g rfl rfl (Option.some.inj hfirst).symm rfl)
  | _ => exact hset rfl (fun _ _ => id) (.kept id rfl rfl rfl)

/-- A restart keeps the log and the snapshot. -/
theorem restart_kept (hs : Sim m H c) {g : Nat} (hst : Step c (.restart i g) c') :
    (c'.servers i).raft.log = (c.servers i).raft.log ∧
      (c'.servers i).raft.persister = (c.servers i).raft.persister ∧
      (c'.servers i).raft.state = .follower := by
  cases hst with
  | restart hr =>
    obtain ⟨rf, first, hrf, hfirst, rfl⟩ := exists_of_make hr
    obtain ⟨_, hlog, hps, hstate⟩ := make_ok hs.ok hs.indexed (hs.raft i) hrf
    rw [show (c.set i _).servers i = _ from Function.update_self ..]
    exact ⟨hlog, hps, hstate⟩

/-! ## Quiet runs -/

/-- The mode of the runs in which no replication goroutine sends after its server entered a later
term. -/
def Mode.fresh : Mode := ⟨False, True⟩

/-- The cluster has been reached without such sends, and what was received and is about to be sent
on `applyChan` is in order. -/
structure Quiet (c : Cluster n α) : Prop where
  reach : Reachable NoStaleSend c
  streaming : ∀ i, Streaming (c.servers i)

namespace Quiet

/-- A cluster that starts is quiet. -/
theorem init : Quiet (Cluster.init : Cluster n α) :=
  ⟨.init, fun _ => ⟨[], List.Perm.refl _, trivial, rfl⟩⟩

variable (h : Quiet c)
include h

/-- A quiet cluster has a chronicle. -/
theorem exists_sim : ∃ H, Sim .fresh H c :=
  DistLabs.exists_sim (h.reach.mono fun _ _ h => ⟨.inr h, .inl trivial⟩)

/-- Nothing past the end of a log is taken to be committed. -/
theorem takeBatch_inOrder (i : Fin n) : InOrder c (.takeBatch i) := by
  obtain ⟨H, hs⟩ := h.exists_sim
  intro last hlast
  have hle := ((hs.raft i).agreed.resolve_left id).le
  rw [(hs.raft i).log.getLastIndex (hs.ok.tip.tip i) hs.indexed] at hlast
  cases hlast
  exact hle

/-- A step that the guards admit keeps the cluster quiet. -/
theorem step (hstale : NoStaleSend c a) (hin : InOrder c a) (hst : c.step a = some c') :
    Quiet c' := by
  obtain ⟨H, hs⟩ := exists_sim_any h.reach
  exact ⟨h.reach.step hstale hst, streaming_step hs hin hst h.streaming⟩

/-- A command that a service received was started. -/
theorem started {command : Option α} {index term : Nat}
    (happly : .apply i (.command command index term) ∈ c.trace) :
    0 < index ∧ ∃ j, .start j command index term ∈ c.trace := by
  obtain ⟨H, hs⟩ := h.exists_sim
  obtain ⟨_, _, _, hpos, _⟩ := (hs.trace _ happly).chosen.resolve_left id
  refine ⟨hpos, ?_⟩
  rcases (exists_commandsFrom h.reach).applied i command index term happly with hzero | hstart
  · cases hzero
    exact absurd hpos (Nat.lt_irrefl 0)
  · exact hstart

/-- Two commands that services received under one index are the same. -/
theorem applied_unique {command command' : Option α} {index term term' : Nat}
    (happly : .apply i (.command command index term) ∈ c.trace)
    (happly' : .apply j (.command command' index term') ∈ c.trace) :
    command = command' ∧ term = term' := by
  obtain ⟨H, hs⟩ := h.exists_sim
  have h1 := (hs.trace _ happly).chosen.resolve_left id
  have h2 := (hs.trace _ happly').chosen.resolve_left id
  have heq := h1.unique hs.ok h2 rfl
  exact ⟨congrArg LogEntry.command heq, congrArg LogEntry.term heq⟩

/-- An index and a term identify what was started. -/
theorem start_unique {command command' : Option α} {index term : Nat}
    (hstart : .start i command index term ∈ c.trace)
    (hstart' : .start j command' index term ∈ c.trace) : command = command' := by
  obtain ⟨H, hs⟩ := h.exists_sim
  exact congrArg LogEntry.command ((hs.trace _ hstart).2.unique (hs.trace _ hstart').2 rfl rfl)

/-- The service has received messages up to `lastApplied` at most. -/
theorem received_le (i : Fin n) :
    lastIndex ApplyMsg.index (c.servers i).startIndex (c.servers i).delivered ≤
      (c.servers i).raft.lastApplied := by
  obtain ⟨queue, _, hstream, hlast⟩ := h.streaming i
  rw [← hlast, lastIndex_append]
  exact (follows_append.1 hstream).2.le_lastIndex fun _ _ hc => hc.lt

/-- `Start` returns an index that the service has not received, and the current term. -/
theorem received_lt_start {command : Option α} {g index term : Nat} {rf : Raft n α}
    (hr : (c.servers i).raft.start command g = some (rf, some (index, term))) :
    lastIndex ApplyMsg.index (c.servers i).startIndex (c.servers i).delivered < index ∧
      term = (c.servers i).raft.currentTerm ∧ (c.servers i).raft.state = .leader := by
  obtain ⟨H, hs⟩ := h.exists_sim
  have htip := hs.ok.tip.tip i
  obtain ⟨hindex, hterm, hleader, _⟩ := start_result ((hs.raft i).log.contiguous hs.indexed) hr
  have hcommit := ((hs.raft i).agreed.resolve_left id).le
  have happlied := (hs.raft i).applied_le
  have hreceived := h.received_le i
  rw [(hs.raft i).log.nextOf htip] at hindex
  exact ⟨by omega, hterm, hleader⟩

/-- What a service receives next continues the stream. -/
theorem continues {msg : ApplyMsg α} {ds : List (ApplyMsg α)}
    (hdel : (c.servers i).delivered = ds ++ [msg]) :
    msg.Continues (lastIndex ApplyMsg.index (c.servers i).startIndex ds) := by
  have hstream := (h.streaming i).delivered_inStream
  rw [hdel] at hstream
  exact (follows_append.1 hstream).2.1

/-- The snapshot in the `Persister` was handed over with the index of the sentinel. -/
theorem persisted (i : Fin n) : HandedOver c.trace (sentinel (c.servers i).raft.log).index
    (c.servers i).raft.persister.snapshot := by
  obtain ⟨H, hs⟩ := h.exists_sim
  exact (exists_snapshotsFrom h.reach).persister hs i

end Quiet

/-- Terms do not decrease. -/
theorem currentTerm_le_of_step {ok : Cluster n α → Action n α → Prop} (hc : Reachable ok c)
    (hst : c.step a = some c') (i : Fin n) :
    (c.servers i).raft.currentTerm ≤ (c'.servers i).raft.currentTerm := by
  obtain ⟨H, hs⟩ := exists_sim_any hc
  obtain ⟨H', e, hs'⟩ := sim_step hs any_admits hst
  rw [(hs.raft i).cur, (hs'.raft i).cur]
  exact e.cur i

/-- A step changes the `Raft` value of one server at most. -/
theorem Step.raft_frame (hst : Step c a c') :
    (∀ i, (c'.servers i).raft = (c.servers i).raft) ∨
      ∃ p, ∀ i, i ≠ p → (c'.servers i).raft = (c.servers i).raft := by
  cases hst with
  | startRefused | loseVote | loseAppend | loseSnap => exact .inl fun _ => rfl
  | _ => exact .inr ⟨_, fun i hi => congrArg Server.raft (Function.update_of_ne hi ..)⟩

/-- The step of a `Start` that succeeds does not change terms and roles. -/
theorem Quiet.start_kept (h : Quiet c) {command : Option α} {g : Nat}
    (hst : Step c (.start i command g) c') (j : Fin n) :
    (c'.servers j).raft.currentTerm = (c.servers j).raft.currentTerm ∧
      (c'.servers j).raft.state = (c.servers j).raft.state := by
  cases hst with
  | startRefused => exact ⟨rfl, rfl⟩
  | @start _ _ _ index term raft hr =>
    obtain ⟨H, hs⟩ := h.exists_sim
    obtain ⟨_, _, _, rfl⟩ := start_result ((hs.raft i).log.contiguous hs.indexed) hr
    refine forall_servers_update (P := fun j s =>
      s.raft.currentTerm = (c.servers j).raft.currentTerm ∧
        s.raft.state = (c.servers j).raft.state) rfl ?_ (fun _ _ => ⟨rfl, rfl⟩) j
    rw [(runHeartBeats_raft _ i).1]
    exact ⟨rfl, rfl⟩

/-- What `Start` does to the cluster when it is refused. -/
theorem of_start_refused {command : Option α} {g : Nat} {rf : Raft n α}
    (hr : (c.servers i).raft.start command g = some (rf, none)) :
    (c.servers i).raft.state ≠ .leader ∧ c.step (.start i command g) = some c := by
  refine ⟨fun hleader => ?_, ?_⟩
  · simp only [Raft.start, hleader, ne_eq, not_true_eq_false, if_false, Option.bind_eq_bind,
      Option.bind_eq_some_iff] at hr
    obtain ⟨_, _, _, _, heq⟩ := hr
    cases heq
  · simp only [Cluster.step, hr]
    rfl

/-- A `Start` that succeeds is recorded. -/
theorem of_start_accepted {command : Option α} {g index term : Nat} {rf : Raft n α}
    (hr : (c.servers i).raft.start command g = some (rf, some (index, term)))
    (hst : c.step (.start i command g) = some c') :
    c'.trace = c.trace ++ [.start i command index term] := by
  simp only [Cluster.step, hr] at hst
  cases hst
  rfl

end DistLabs
