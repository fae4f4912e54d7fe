import DistLabs.Raft.Cluster

/-!
# What a step can do

`Step c a c'` lists the effects of the actions with their guards; `step_cases` says that
`Cluster.step` does nothing else, and `Step.step_eq` that it does all of it. Proofs about steps go
by cases on `Step` and never unfold `Cluster.step`.
-/

namespace DistLabs

variable {n : Nat} {α : Type}

/-- The effect of an action that is enabled and does not panic. -/
inductive Step (c : Cluster n α) : Action n α → Cluster n α → Prop
  | electionTimeout {i : Fin n} {raft : Raft n α} {args : RequestVoteArgs n}
      (h : (c.servers i).raft.startElection i = some (raft, args))
      (hst : (c.servers i).raft.state = .follower ∨ (c.servers i).raft.state = .candidate) :
      Step c (.electionTimeout i)
        { c.set i { c.servers i with raft, receivedVotes := 1 } with
          votes := c.votes ++ ((List.finRange n).filter (· ≠ i)).map fun j =>
            ⟨i, (c.servers i).epoch, j, args, none⟩ }
  | heartBeat {i : Fin n} : Step c (.heartBeat i) (c.set i ((c.servers i).runHeartBeats i))
  | startRefused {i : Fin n} {command : Option α} {g : Nat} {raft : Raft n α}
      (h : (c.servers i).raft.start command g = some (raft, none)) : Step c (.start i command g) c
  | start {i : Fin n} {command : Option α} {g index term : Nat} {raft : Raft n α}
      (h : (c.servers i).raft.start command g = some (raft, some (index, term))) :
      Step c (.start i command g)
        ((c.set i (({ c.servers i with raft } : Server n α).runHeartBeats i)).log
          [.start i command index term])
  | snapshot {i : Fin n} {b : Bytes} {g : Nat} {raft : Raft n α} {msg : ApplyMsg α}
      (hmsg : msg ∈ (c.servers i).delivered)
      (h : (c.servers i).raft.snapshot msg.index b g = some raft) :
      Step c (.snapshot i msg.index b g)
        ((c.set i { c.servers i with raft }).log [.snapshot i msg.index b])
  | replicateIdle {i : Fin n} {k : Nat} {r : Replicator n}
      (hk : (c.servers i).replicators[k]? = some r)
      (h : (c.servers i).raft.buildRequest i r.server r.currentTerm = some none) :
      Step c (.replicate i k)
        (c.set i { c.servers i with replicators := (c.servers i).replicators.eraseIdx k })
  | replicateAppend {i : Fin n} {k : Nat} {r : Replicator n} {args : AppendEntriesArgs n α}
      (hk : (c.servers i).replicators[k]? = some r)
      (h : (c.servers i).raft.buildRequest i r.server r.currentTerm = some (some (.append args))) :
      Step c (.replicate i k)
        { c.set i { c.servers i with replicators := (c.servers i).replicators.eraseIdx k } with
          appends := c.appends ++ [⟨i, (c.servers i).epoch, r.server, args, none⟩] }
  | replicateSnapshot {i : Fin n} {k : Nat} {r : Replicator n} {args : InstallSnapshotArgs n}
      (hk : (c.servers i).replicators[k]? = some r)
      (h : (c.servers i).raft.buildRequest i r.server r.currentTerm =
        some (some (.snapshot args))) :
      Step c (.replicate i k)
        { c.set i { c.servers i with replicators := (c.servers i).replicators.eraseIdx k } with
          snaps := c.snaps ++ [⟨i, (c.servers i).epoch, r.server, args, none⟩] }
  | requestVote {k : Nat} {call : VoteCall n} {raft : Raft n α} {reply : RequestVoteReply}
      (hk : c.votes[k]? = some call)
      (h : (c.servers call.callee).raft.requestVote call.args = some (raft, reply))
      (hr : call.reply = none) :
      Step c (.requestVote k)
        { c.set call.callee { c.servers call.callee with raft } with
          votes := c.votes.set k { call with reply := some reply } }
  | requestVoteReply {k : Nat} {call : VoteCall n} {reply : RequestVoteReply} {s' : Server n α}
      (hk : c.votes[k]? = some call) (hr : call.reply = some reply)
      (he : call.epoch = (c.servers call.caller).epoch)
      (h : (c.servers call.caller).handleVoteReply call.args reply = some (s', false)) :
      Step c (.requestVoteReply k)
        { c.set call.caller s' with votes := c.votes.eraseIdx k }
  | elected {k : Nat} {call : VoteCall n} {reply : RequestVoteReply} {s' : Server n α}
      (hk : c.votes[k]? = some call) (hr : call.reply = some reply)
      (he : call.epoch = (c.servers call.caller).epoch)
      (h : (c.servers call.caller).handleVoteReply call.args reply = some (s', true)) :
      Step c (.requestVoteReply k)
        (({ c.set call.caller s' with votes := c.votes.eraseIdx k } : Cluster n α).log
          [.becomeLeader call.caller s'.raft.currentTerm s'.raft.log])
  | appendEntries {k g : Nat} {call : AppendCall n α} {raft : Raft n α}
      {reply : AppendEntriesReply} (hk : c.appends[k]? = some call)
      (h : (c.servers call.callee).raft.appendEntries call.args g = some (raft, reply))
      (hr : call.reply = none) :
      Step c (.appendEntries k g)
        { c.set call.callee { c.servers call.callee with raft } with
          appends := c.appends.set k { call with reply := some reply } }
  | appendEntriesReply {k : Nat} {call : AppendCall n α} {reply : AppendEntriesReply}
      {raft : Raft n α} {again : Bool} {assigned : List Nat} (hk : c.appends[k]? = some call)
      (hr : call.reply = some reply) (he : call.epoch = (c.servers call.caller).epoch)
      (h : (c.servers call.caller).raft.handleAppendEntriesRPCResponse call.caller call.callee
        call.args reply = some (raft, again, assigned)) :
      Step c (.appendEntriesReply k)
        (({ c.set call.caller
              { c.servers call.caller with
                raft
                replicators := if again then
                    (c.servers call.caller).replicators ++ [⟨call.callee, call.args.term⟩]
                  else (c.servers call.caller).replicators } with
            appends := c.appends.eraseIdx k } : Cluster n α).log
          (assigned.map fun i => .commit call.caller raft.currentTerm i raft.log))
  | installRefused {k g : Nat} {call : SnapCall n} {raft : Raft n α} {reply : InstallSnapshotReply}
      (hk : c.snaps[k]? = some call)
      (h : (c.servers call.callee).raft.installSnapshot call.args g = some (raft, reply, none))
      (hr : call.reply = none) :
      Step c (.installSnapshot k g)
        (({ c.set call.callee { c.servers call.callee with raft } with
            snaps := c.snaps.set k { call with reply := some reply } } : Cluster n α).log
          [.installSnapshot call.callee call.args.lastIncludedIndex call.args.snapshot])
  | installSnapshot {k g : Nat} {call : SnapCall n} {raft : Raft n α}
      {reply : InstallSnapshotReply} {msg : ApplyMsg α} (hk : c.snaps[k]? = some call)
      (h : (c.servers call.callee).raft.installSnapshot call.args g =
        some (raft, reply, some msg)) (hr : call.reply = none) :
      Step c (.installSnapshot k g)
        (({ c.set call.callee
              { c.servers call.callee with
                raft
                installing := (c.servers call.callee).installing ++
                  [⟨{ call with reply := some reply }, msg⟩] } with
            snaps := c.snaps.eraseIdx k } : Cluster n α).log
          [.installSnapshot call.callee call.args.lastIncludedIndex call.args.snapshot])
  | installSnapshotReply {k : Nat} {call : SnapCall n} {reply : InstallSnapshotReply}
      (hk : c.snaps[k]? = some call) (hr : call.reply = some reply)
      (he : call.epoch = (c.servers call.caller).epoch) :
      Step c (.installSnapshotReply k)
        { c.set call.caller
            { c.servers call.caller with
              raft := (c.servers call.caller).raft.handleInstallSnapshotRPCResponse call.callee
                call.args reply } with
          snaps := c.snaps.eraseIdx k }
  | loseVote {k : Nat} : Step c (.loseVote k) { c with votes := c.votes.eraseIdx k }
  | loseAppend {k : Nat} : Step c (.loseAppend k) { c with appends := c.appends.eraseIdx k }
  | loseSnap {k : Nat} : Step c (.loseSnap k) { c with snaps := c.snaps.eraseIdx k }
  | takeBatch {i : Fin n} {raft : Raft n α} {batch : List (LogEntry α)}
      (hidle : (c.servers i).applying = [])
      (h : (c.servers i).raft.takeBatch = some (raft, batch)) :
      Step c (.takeBatch i) (c.set i { c.servers i with raft, applying := batch })
  | sendCommand {i : Fin n} {e : LogEntry α} {es : List (LogEntry α)}
      (h : (c.servers i).applying = e :: es) :
      Step c (.sendCommand i)
        ((c.set i
          { c.servers i with
            applying := es
            delivered := (c.servers i).delivered ++ [.command e.command e.index e.term] }).log
          [.apply i (.command e.command e.index e.term)])
  | sendSnapshot {i : Fin n} {k : Nat} {inst : Installer n α}
      (h : (c.servers i).installing[k]? = some inst) :
      Step c (.sendSnapshot i k)
        (({ c.set i
              { c.servers i with
                installing := (c.servers i).installing.eraseIdx k
                delivered := (c.servers i).delivered ++ [inst.msg] } with
            snaps := c.snaps ++ [inst.call] } : Cluster n α).log [.apply i inst.msg])
  | kill {i : Fin n} :
      Step c (.kill i) (c.set i { c.servers i with raft := (c.servers i).raft.kill })
  | restart {i : Fin n} {g : Nat} {s' : Server n α}
      (h : Server.make (c.servers i).raft.persister ((c.servers i).epoch + 1) g = some s') :
      Step c (.restart i g) (c.set i s')

/-- `Cluster.step` does what `Step` lists. -/
theorem step_cases {c c' : Cluster n α} {a : Action n α} (hst : c.step a = some c') :
    Step c a c' := by
  cases a with
  | electionTimeout i =>
    simp only [Cluster.step] at hst
    split at hst
    · next hstate =>
      rw [Option.bind_eq_bind, Option.bind_eq_some_iff] at hst
      obtain ⟨_, h, hst⟩ := hst
      cases hst
      exact .electionTimeout h hstate
    · cases hst
  | heartBeat i =>
    cases hst
    exact .heartBeat
  | start i command g =>
    simp only [Cluster.step, Option.bind_eq_bind, Option.bind_eq_some_iff, Prod.exists] at hst
    obtain ⟨rf, res, h, hst⟩ := hst
    cases res with
    | none =>
      cases hst
      exact .startRefused h
    | some it =>
      cases hst
      exact .start h
  | snapshot i index b g =>
    simp only [Cluster.step] at hst
    split at hst
    · next hdel =>
      obtain ⟨msg, hmsg, rfl⟩ := hdel
      rw [Option.bind_eq_bind, Option.bind_eq_some_iff] at hst
      obtain ⟨_, h, hst⟩ := hst
      cases hst
      exact .snapshot hmsg h
    · cases hst
  | replicate i k =>
    simp only [Cluster.step, Option.bind_eq_bind, Option.bind_eq_some_iff] at hst
    obtain ⟨r, hk, request, h, hst⟩ := hst
    cases request with
    | none =>
      cases hst
      exact .replicateIdle hk h
    | some request =>
      cases request with
      | append args =>
        cases hst
        exact .replicateAppend hk h
      | snapshot args =>
        cases hst
        exact .replicateSnapshot hk h
  | requestVote k =>
    simp only [Cluster.step, Option.bind_eq_bind, Option.bind_eq_some_iff] at hst
    obtain ⟨call, hk, hst⟩ := hst
    split at hst
    · cases hst
    · next hr =>
      rw [Option.bind_eq_some_iff] at hst
      obtain ⟨_, h, hst⟩ := hst
      cases hst
      exact .requestVote hk h (Option.not_isSome_iff_eq_none.1 hr)
  | requestVoteReply k =>
    simp only [Cluster.step, Option.bind_eq_bind, Option.bind_eq_some_iff] at hst
    obtain ⟨call, hk, reply, hr, hst⟩ := hst
    split at hst
    · cases hst
    · next he =>
      rw [Option.bind_eq_some_iff] at hst
      obtain ⟨⟨s', elected⟩, h, hst⟩ := hst
      cases elected with
      | true =>
        cases hst
        exact .elected hk hr (not_not.1 he) h
      | false =>
        cases hst
        exact .requestVoteReply hk hr (not_not.1 he) h
  | appendEntries k g =>
    simp only [Cluster.step, Option.bind_eq_bind, Option.bind_eq_some_iff] at hst
    obtain ⟨call, hk, hst⟩ := hst
    split at hst
    · cases hst
    · next hr =>
      rw [Option.bind_eq_some_iff] at hst
      obtain ⟨_, h, hst⟩ := hst
      cases hst
      exact .appendEntries hk h (Option.not_isSome_iff_eq_none.1 hr)
  | appendEntriesReply k =>
    simp only [Cluster.step, Option.bind_eq_bind, Option.bind_eq_some_iff] at hst
    obtain ⟨call, hk, reply, hr, hst⟩ := hst
    split at hst
    · cases hst
    · next he =>
      simp only [Option.bind_eq_some_iff, Prod.exists] at hst
      obtain ⟨rf, again, assigned, h, hst⟩ := hst
      cases hst
      exact .appendEntriesReply hk hr (not_not.1 he) h
  | installSnapshot k g =>
    simp only [Cluster.step, Option.bind_eq_bind, Option.bind_eq_some_iff] at hst
    obtain ⟨call, hk, hst⟩ := hst
    split at hst
    · cases hst
    · next hr =>
      simp only [Option.bind_eq_some_iff, Prod.exists] at hst
      obtain ⟨rf, reply, msg, h, hst⟩ := hst
      cases msg with
      | none =>
        cases hst
        exact .installRefused hk h (Option.not_isSome_iff_eq_none.1 hr)
      | some msg =>
        cases hst
        exact .installSnapshot hk h (Option.not_isSome_iff_eq_none.1 hr)
  | installSnapshotReply k =>
    simp only [Cluster.step, Option.bind_eq_bind, Option.bind_eq_some_iff] at hst
    obtain ⟨call, hk, reply, hr, hst⟩ := hst
    split at hst
    · cases hst
    · next he =>
      cases hst
      exact .installSnapshotReply hk hr (not_not.1 he)
  | loseVote k =>
    cases hst
    exact .loseVote
  | loseAppend k =>
    cases hst
    exact .loseAppend
  | loseSnap k =>
    cases hst
    exact .loseSnap
  | takeBatch i =>
    simp only [Cluster.step] at hst
    split at hst
    · cases hst
    · next hidle =>
      rw [Option.bind_eq_bind, Option.bind_eq_some_iff] at hst
      obtain ⟨_, h, hst⟩ := hst
      cases hst
      exact .takeBatch (not_not.1 hidle) h
  | sendCommand i =>
    simp only [Cluster.step] at hst
    split at hst
    · cases hst
    · next h =>
      cases hst
      exact .sendCommand h
  | sendSnapshot i k =>
    simp only [Cluster.step, Option.bind_eq_bind, Option.bind_eq_some_iff] at hst
    obtain ⟨_, h, hst⟩ := hst
    cases hst
    exact .sendSnapshot h
  | kill i =>
    cases hst
    exact .kill
  | restart i g =>
    simp only [Cluster.step, Option.bind_eq_bind, Option.bind_eq_some_iff] at hst
    obtain ⟨_, h, hst⟩ := hst
    cases hst
    exact .restart h

/-- A restart makes the `Raft` value anew and forgets the goroutines. -/
theorem exists_of_make {persister : Persister n α} {epoch g : Nat} {s : Server n α}
    (h : Server.make persister epoch g = some s) :
    ∃ raft startIndex, Raft.make persister g = some raft ∧ raft.getFirstIndex = some startIndex ∧
      s = { raft, epoch, receivedVotes := 0, replicators := [], applying := [], installing := []
            startIndex, delivered := [] } := by
  simp only [Server.make, Option.bind_eq_bind, Option.bind_eq_some_iff] at h
  obtain ⟨raft, hraft, startIndex, hfirst, h⟩ := h
  cases h
  exact ⟨raft, startIndex, hraft, hfirst, rfl⟩

/-- Everything that `Step` lists is a step of the cluster. -/
theorem Step.step_eq {c c' : Cluster n α} {a : Action n α} (hst : Step c a c') :
    c.step a = some c' := by
  cases hst with
  | electionTimeout h hst =>
    rw [Cluster.step, if_pos hst, h]
    rfl
  | heartBeat | loseVote | loseAppend | loseSnap | kill => rfl
  | startRefused h | start h | sendCommand h | sendSnapshot h | restart h =>
    simp only [Cluster.step, h]
    rfl
  | snapshot hmsg h =>
    rw [Cluster.step, if_pos ⟨_, hmsg, rfl⟩, h]
    rfl
  | replicateIdle hk h | replicateAppend hk h | replicateSnapshot hk h =>
    simp only [Cluster.step, hk, h, Option.bind_eq_bind, Option.bind_some]
    rfl
  | requestVote hk h hr | appendEntries hk h hr | installRefused hk h hr
  | installSnapshot hk h hr =>
    simp only [Cluster.step, hk, h, hr, Option.bind_eq_bind, Option.bind_some]
    rfl
  | requestVoteReply hk hr he h | elected hk hr he h | appendEntriesReply hk hr he h =>
    simp only [Cluster.step, hk, hr, h, if_neg (not_not.2 he), Option.bind_eq_bind,
      Option.bind_some]
    rfl
  | installSnapshotReply hk hr he =>
    simp only [Cluster.step, hk, hr, if_neg (not_not.2 he), Option.bind_eq_bind, Option.bind_some]
    rfl
  | takeBatch hidle h =>
    simp only [Cluster.step, hidle, h]
    rfl

end DistLabs
