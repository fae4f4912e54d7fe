import DistLabs.Raft.Tracked

/-!
# One server and one call in a step of the cluster

`Step` lists what the actions do to the whole cluster. An invariant that speaks of every server and
every call by itself needs less: how the `Raft` value of one server can change (`LocalStep`), and
where a call in flight comes from (`AppendOrigin`, `SnapOrigin`).
-/

namespace DistLabs

open Lib Chronicle

variable {n : Nat} {α : Type} {c c' : Cluster n α} {a : Action n α} {p : Fin n} {s' : Server n α}

/-- The `Raft` values that a handler of server `i` can leave in a step from `c`. -/
inductive LocalStep (c : Cluster n α) (i : Fin n) : Raft n α → Prop
  | startElection {raft : Raft n α} {args : RequestVoteArgs n}
      (h : (c.servers i).raft.startElection i = some (raft, args)) : LocalStep c i raft
  | start {command : Option α} {g index term : Nat} {raft : Raft n α}
      (h : (c.servers i).raft.start command g = some (raft, some (index, term))) :
      LocalStep c i raft
  | snapshot {b : Bytes} {g : Nat} {raft : Raft n α} {msg : ApplyMsg α}
      (hmsg : msg ∈ (c.servers i).delivered)
      (h : (c.servers i).raft.snapshot msg.index b g = some raft) : LocalStep c i raft
  | requestVote {args : RequestVoteArgs n} {raft : Raft n α} {reply : RequestVoteReply}
      (h : (c.servers i).raft.requestVote args = some (raft, reply)) : LocalStep c i raft
  | voteReply {args : RequestVoteArgs n} {reply : RequestVoteReply} {s' : Server n α}
      {elected : Bool} (h : (c.servers i).handleVoteReply args reply = some (s', elected)) :
      LocalStep c i s'.raft
  | appendEntries {call : AppendCall n α} {g : Nat} {raft : Raft n α} {reply : AppendEntriesReply}
      (hcall : call ∈ c.appends)
      (h : (c.servers i).raft.appendEntries call.args g = some (raft, reply)) : LocalStep c i raft
  | appendEntriesReply {call : AppendCall n α} {reply : AppendEntriesReply} {raft : Raft n α}
      {again : Bool} {assigned : List Nat} (hcall : call ∈ c.appends)
        (hr : call.reply = some reply) (hi : call.caller = i)
      (h : (c.servers i).raft.handleAppendEntriesRPCResponse i call.callee call.args reply =
        some (raft, again, assigned)) : LocalStep c i raft
  | installSnapshot {call : SnapCall n} {g : Nat} {raft : Raft n α} {reply : InstallSnapshotReply}
      {msg : Option (ApplyMsg α)} (hcall : call ∈ c.snaps)
      (h : (c.servers i).raft.installSnapshot call.args g = some (raft, reply, msg)) :
      LocalStep c i raft
  | installSnapshotReply {call : SnapCall n} {reply : InstallSnapshotReply}
      (hcall : call ∈ c.snaps) (hi : call.caller = i) :
      LocalStep c i
        ((c.servers i).raft.handleInstallSnapshotRPCResponse call.callee call.args reply)
  | takeBatch {raft : Raft n α} {batch : List (LogEntry α)}
      (h : (c.servers i).raft.takeBatch = some (raft, batch)) : LocalStep c i raft
  | kill : LocalStep c i (c.servers i).raft.kill
  | restart {g : Nat} {s' : Server n α}
      (h : Server.make (c.servers i).raft.persister ((c.servers i).epoch + 1) g = some s') :
      LocalStep c i s'.raft

/-- A step of server `p` leaves the other servers. -/
theorem raft_eq_or_local (hserv : c'.servers = Function.update c.servers p s')
    (h : s'.raft = (c.servers p).raft ∨ LocalStep c p s'.raft) (i : Fin n) :
    (c'.servers i).raft = (c.servers i).raft ∨ LocalStep c i (c'.servers i).raft := by
  rw [hserv]
  by_cases hi : i = p
  · subst hi
    rw [Function.update_self]
    exact h
  · rw [Function.update_of_ne hi]
    exact .inl rfl

/-- What a step does to the `Raft` value of a server. -/
theorem Step.raft_cases (hst : Step c a c') (i : Fin n) :
    (c'.servers i).raft = (c.servers i).raft ∨ LocalStep c i (c'.servers i).raft := by
  cases hst with
  | electionTimeout h => exact raft_eq_or_local rfl (.inr (.startElection h)) i
  | @heartBeat j => exact raft_eq_or_local rfl (.inl (runHeartBeats_raft (c.servers j) j).1) i
  | startRefused | loseVote | loseAppend | loseSnap => exact .inl rfl
  | @start j _ _ _ _ raft h =>
    refine raft_eq_or_local rfl (.inr ?_) i
    rw [(runHeartBeats_raft ({ c.servers j with raft } : Server n α) j).1]
    exact .start h
  | snapshot hmsg h => exact raft_eq_or_local rfl (.inr (.snapshot hmsg h)) i
  | replicateIdle | replicateAppend | replicateSnapshot | sendCommand | sendSnapshot =>
    refine raft_eq_or_local rfl ?_ i
    exact .inl rfl
  | requestVote _ h => exact raft_eq_or_local rfl (.inr (.requestVote h)) i
  | requestVoteReply _ _ _ h | elected _ _ _ h =>
    exact raft_eq_or_local rfl (.inr (.voteReply h)) i
  | appendEntries hk h =>
    exact raft_eq_or_local rfl (.inr (.appendEntries (List.mem_of_getElem? hk) h)) i
  | appendEntriesReply hk hr _ h =>
    exact raft_eq_or_local rfl
      (.inr (.appendEntriesReply (List.mem_of_getElem? hk) hr rfl h)) i
  | installRefused hk h | installSnapshot hk h =>
    exact raft_eq_or_local rfl (.inr (.installSnapshot (List.mem_of_getElem? hk) h)) i
  | installSnapshotReply hk =>
    exact raft_eq_or_local rfl (.inr (.installSnapshotReply (List.mem_of_getElem? hk) rfl)) i
  | takeBatch _ h => exact raft_eq_or_local rfl (.inr (.takeBatch h)) i
  | kill => exact raft_eq_or_local rfl (.inr .kill) i
  | restart h => exact raft_eq_or_local rfl (.inr (.restart h)) i

/-- An invariant that is proved beside the simulation. -/
theorem invariant_of_sim {P : Cluster n α → Prop} {ok : Cluster n α → Action n α → Prop}
    (h0 : P Cluster.init)
    (hstep : ∀ {H H' : Chron n α} {c c' : Cluster n α} {a : Action n α}, Sim .any H c →
      Sim .any H' c' → Ext H H' → P c → ok c a → c.step a = some c' → P c')
    (hc : Reachable ok c) : P c := by
  induction hc with
  | init => exact h0
  | step hc hok hst ih =>
    obtain ⟨H, hs⟩ := exists_sim_any hc
    obtain ⟨H', e, hs'⟩ := sim_step hs any_admits hst
    exact hstep hs hs' e ih hok hst

/-! ## Calls -/

/-- An `AppendEntries` call in flight after the action: an old one, one that got its reply, or one
that a replication goroutine has just built. -/
inductive AppendOrigin (c : Cluster n α) : Action n α → AppendCall n α → Prop
  | old {a : Action n α} {call : AppendCall n α} (h : call ∈ c.appends) : AppendOrigin c a call
  | answered {a : Action n α} {call : AppendCall n α} {g : Nat} {raft : Raft n α}
      {reply : AppendEntriesReply} (hcall : call ∈ c.appends)
      (h : (c.servers call.callee).raft.appendEntries call.args g = some (raft, reply)) :
      AppendOrigin c a { call with reply := some reply }
  | built {i : Fin n} {k : Nat} {r : Replicator n} {args : AppendEntriesArgs n α}
      (hk : (c.servers i).replicators[k]? = some r)
      (h : (c.servers i).raft.buildRequest i r.server r.currentTerm = some (some (.append args))) :
      AppendOrigin c (.replicate i k) ⟨i, (c.servers i).epoch, r.server, args, none⟩

/-- A request that is on its way was on its way before, or is sent in this step. -/
theorem Step.append_origin (hst : Step c a c') {call : AppendCall n α} (h : call ∈ c'.appends) :
    AppendOrigin c a call := by
  cases hst with
  | replicateAppend hk hb =>
    rcases List.mem_append.1 h with h | h
    · exact .old h
    · rw [List.mem_singleton.1 h]
      exact .built hk hb
  | appendEntries hk hr =>
    rcases List.mem_or_eq_of_mem_set h with h | rfl
    · exact .old h
    · exact .answered (List.mem_of_getElem? hk) hr
  | appendEntriesReply | loseAppend => exact .old (List.eraseIdx_subset h)
  | _ => exact .old h

/-- An `InstallSnapshot` call in flight after the action carries the arguments of an old one, or
was just built. -/
inductive SnapOrigin (c : Cluster n α) : Action n α → SnapCall n → Prop
  | old {a : Action n α} {call call' : SnapCall n} (h : SnapInFlight c call)
      (hargs : call'.args = call.args) : SnapOrigin c a call'
  | built {i : Fin n} {k : Nat} {r : Replicator n} {args : InstallSnapshotArgs n}
      (hk : (c.servers i).replicators[k]? = some r)
      (h : (c.servers i).raft.buildRequest i r.server r.currentTerm =
        some (some (.snapshot args))) :
      SnapOrigin c (.replicate i k) ⟨i, (c.servers i).epoch, r.server, args, none⟩

/-- A step of server `p` that leaves its handlers and sends no snapshot. -/
theorem SnapOrigin.of_subset {call : SnapCall n} (h : SnapInFlight c' call)
    (hserv : c'.servers = Function.update c.servers p s')
    (hinst : s'.installing ⊆ (c.servers p).installing) (hsnaps : c'.snaps ⊆ c.snaps) :
    SnapOrigin c a call :=
  .old (h.of_subset hserv hinst hsnaps) rfl

/-- A snapshot that is on its way was on its way before, or is sent in this step. -/
theorem Step.snap_origin (hst : Step c a c') {call : SnapCall n} (h : SnapInFlight c' call) :
    SnapOrigin c a call := by
  have hrefl : ∀ {β : Type} (l : List β), l ⊆ l := fun l => List.Subset.refl l
  cases hst with
  | startRefused | loseVote | loseAppend => exact .old h rfl
  | loseSnap => exact .old (h.imp (fun h => List.eraseIdx_subset h) id) rfl
  | @heartBeat j =>
    refine .of_subset h rfl ?_ (hrefl _)
    rw [runHeartBeats_installing]
    exact hrefl _
  | @start j =>
    refine .of_subset h rfl ?_ (hrefl _)
    rw [runHeartBeats_installing]
    exact hrefl _
  | electionTimeout | snapshot | replicateIdle | replicateAppend | requestVote | appendEntries
  | appendEntriesReply | takeBatch | sendCommand | kill =>
    exact .of_subset h rfl (hrefl _) (hrefl _)
  | replicateSnapshot hk hb =>
    rcases h.of_update rfl (hrefl _) with h | h
    · rcases List.mem_append.1 h with h | h
      · exact .old (.inl h) rfl
      · rw [List.mem_singleton.1 h]
        exact .built hk hb
    · exact .old h rfl
  | requestVoteReply _ _ _ hr | elected _ _ _ hr =>
    refine .of_subset h rfl ?_ (hrefl _)
    rcases handleVoteReply_cases hr with
      ⟨rfl, _⟩ | ⟨_, _, ⟨_, ⟨rfl, _⟩ | ⟨_, _, _, rfl, _⟩⟩ | ⟨_, rfl, _⟩⟩ <;> exact hrefl _
  | @installRefused _ _ call₀ _ _ hk =>
    rcases h.of_update rfl (hrefl _) with h | h
    · rcases List.mem_or_eq_of_mem_set h with h | rfl
      · exact .old (.inl h) rfl
      · exact .old (.inl (List.mem_of_getElem? hk)) rfl
    · exact .old h rfl
  | @installSnapshot _ _ call₀ _ _ _ hk =>
    rcases h with h | ⟨q, x, hx, rfl⟩
    · exact .old (.inl (List.eraseIdx_subset h)) rfl
    rcases exists_installing_of_update rfl hx with hx | hx
    · rcases List.mem_append.1 hx with hx | hx
      · exact .old (.inr ⟨_, x, hx, rfl⟩) rfl
      · rw [List.mem_singleton.1 hx]
        exact .old (.inl (List.mem_of_getElem? hk)) rfl
    · exact .old hx rfl
  | installSnapshotReply => exact .of_subset h rfl (hrefl _) List.eraseIdx_subset
  | @sendSnapshot j _ x hx =>
    rcases h.of_update rfl List.eraseIdx_subset with h | h
    · rcases List.mem_append.1 h with h | h
      · exact .old (.inl h) rfl
      · rw [List.mem_singleton.1 h]
        exact .old (.inr ⟨j, x, List.mem_of_getElem? hx, rfl⟩) rfl
    · exact .old h rfl
  | restart hr =>
    obtain ⟨_, _, _, _, rfl⟩ := exists_of_make hr
    exact .of_subset h rfl (List.nil_subset _) (hrefl _)

end DistLabs
