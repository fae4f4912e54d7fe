import DistLabs.Raft.Contiguous
import DistLabs.Raft.Local
import DistLabs.Raft.Safety

/-!
# Entries from the future

`NoFuture` says that no log, no `AppendEntries` request and no `InstallSnapshot` request holds a
term that is later than the term of its owner. A replication goroutine breaks it when its server
loses and regains the leadership before it sends: it sends the new log with the old term
(`futureRun_future`). In the runs in which every goroutine sends in the term it was started in,
every step keeps it.
-/

namespace DistLabs

open Lib Chronicle

variable {n : Nat} {α : Type} {m : Mode} {H : Chron n α} {c c' : Cluster n α} {i : Fin n}
  {rf rf' : Raft n α}

/-- No entry is from the future. Snapshot calls include those whose handler waits to send on
`applyChan`. -/
structure NoFuture (c : Cluster n α) : Prop where
  log : ∀ i, ∀ e ∈ (c.servers i).raft.log, e.term ≤ (c.servers i).raft.currentTerm
  appends : ∀ call ∈ c.appends, call.args.prevLogTerm ≤ call.args.term ∧
    ∀ e ∈ call.args.entries, e.term ≤ call.args.term
  snaps : ∀ call, SnapInFlight c call → call.args.lastIncludedTerm ≤ call.args.term

/-! ## What the handlers put into a log -/

/-- The terms in the log of `rf'` are terms in that of `rf`, or at most `t`. -/
def TermsFrom (t : Nat) (rf rf' : Raft n α) : Prop :=
  ∀ e ∈ rf'.log, (∃ e₀ ∈ rf.log, e.term = e₀.term) ∨ e.term ≤ t

/-- A log that stays as it is has no new terms. -/
theorem TermsFrom.of_log {t : Nat} (h : rf'.log = rf.log) : TermsFrom t rf rf' := by
  intro e he
  rw [h] at he
  exact .inl ⟨e, he, rfl⟩

/-- `Start` appends an entry of the current term. -/
theorem start_termsFrom {command : Option α} {g index term : Nat}
    (hr : rf.start command g = some (rf', some (index, term))) :
    TermsFrom rf'.currentTerm rf rf' := by
  rw [Raft.start] at hr
  split at hr
  · cases hr
  simp only [Option.bind_eq_bind, Option.bind_eq_some_iff] at hr
  obtain ⟨next, _, last, _, hr⟩ := hr
  cases hr
  intro e he
  rcases List.mem_append.1 he with he | he
  · exact .inl ⟨e, List.mem_of_mem_take he, rfl⟩
  · rw [List.mem_singleton.1 he]
    exact .inr (Nat.le_refl _)

/-- `Snapshot` brings no new terms. -/
theorem snapshot_termsFrom {index g t : Nat} {b : Bytes} (hr : rf.snapshot index b g = some rf') :
    TermsFrom t rf rf' := by
  simp only [Raft.snapshot, Option.bind_eq_bind, Option.bind_eq_some_iff] at hr
  obtain ⟨first, _, hr⟩ := hr
  split at hr
  · cases hr
    exact .of_log rfl
  split at hr
  · cases hr
  split at hr
  · cases hr
  next e₀ entries hdrop =>
  have hsub : e₀ :: entries ⊆ rf.log := by
    rw [← hdrop]
    exact List.drop_subset ..
  cases hr
  intro e he
  rcases List.mem_cons.1 he with rfl | he
  · exact .inl ⟨e₀, hsub List.mem_cons_self, rfl⟩
  · exact .inl ⟨e, hsub (List.mem_cons_of_mem _ he), rfl⟩

/-- `AppendEntries` brings terms up to that of the request only. -/
theorem appendEntries_termsFrom (hc : Contiguous rf.log) {args : AppendEntriesArgs n α} {g : Nat}
    {reply : AppendEntriesReply} (hargs : ∀ e ∈ args.entries, e.term ≤ args.term)
    (hr : rf.appendEntries args g = some (rf', reply)) : TermsFrom rf'.currentTerm rf rf' := by
  obtain ⟨_, _, hr', hcase⟩ := hc.exists_appendEntries args g
  rw [hr] at hr'
  cases hr'
  rcases hcase with ⟨_, rfl, _⟩ | ⟨_, _, hct, hrec⟩
  · exact .of_log rfl
  have hlog : (rf.stepDown args.term).toFollower.log = rf.log := stepDown_log ..
  cases hrec with
  | below | short | conflict => exact .of_log hlog
  | stored _ _ hs =>
    intro e he
    rw [hs.log, hlog] at he
    rw [hs.currentTerm, hct]
    split at he
    · exact .inl ⟨e, he, rfl⟩
    rcases List.mem_append.1 he with he | he
    · exact .inl ⟨e, List.mem_of_mem_take he, rfl⟩
    · exact .inr (hargs e (List.mem_of_mem_drop he))

/-- `InstallSnapshot` brings terms up to that of the request only. -/
theorem installSnapshot_termsFrom (hc : Contiguous rf.log)
    (hfirst : (sentinel rf.log).index ≤ rf.commitIndex) {args : InstallSnapshotArgs n} {g : Nat}
    {reply : InstallSnapshotReply} {msg : Option (ApplyMsg α)}
    (hargs : args.lastIncludedTerm ≤ args.term)
    (hr : rf.installSnapshot args g = some (rf', reply, msg)) :
    TermsFrom rf'.currentTerm rf rf' := by
  obtain ⟨_, _, _, hr', hcase⟩ := hc.exists_installSnapshot hfirst args g
  rw [hr] at hr'
  cases hr'
  rcases hcase with ⟨rfl, _⟩ | ⟨hct, hrep⟩
  · exact .of_log rfl
  have hlog : (rf.stepDown args.term).toFollower.log = rf.log := stepDown_log ..
  -- the snapshot's last entry is of the request's term at most, the rest was in the log
  have hreplace : ∀ {entries spare : List (LogEntry α)}, entries ⊆ rf.log →
      TermsFrom (rf.stepDown args.term).toFollower.currentTerm rf
        ((rf.stepDown args.term).toFollower.replaceLog args entries spare) := by
    intro entries spare hsub e he
    rcases List.mem_cons.1 he with rfl | he
    · rw [hct]
      exact .inr hargs
    · exact .inl ⟨e, hsub he, rfl⟩
  cases hrep with
  | known => exact .of_log hlog
  | whole => exact hreplace (List.nil_subset _)
  | suffix =>
    refine hreplace ?_
    rw [hlog]
    exact List.drop_subset ..

/-- Every handler puts only entries of the server's own term and of the requests into a log. -/
theorem LocalStep.termsFrom (hs : Sim m H c) (h : NoFuture c) (hl : LocalStep c i rf') :
    TermsFrom rf'.currentTerm (c.servers i).raft rf' := by
  cases hl with
  | startElection hr => exact .of_log (startElection_log hr).1
  | start hr => exact start_termsFrom hr
  | snapshot _ hr => exact snapshot_termsFrom hr
  | requestVote hr => exact .of_log (requestVote_log hr).1
  | voteReply hr =>
    refine .of_log ?_
    rcases handleVoteReply_cases hr with
      ⟨rfl, _⟩ | ⟨_, _, ⟨_, ⟨rfl, _⟩ | ⟨_, _, hbl, rfl, _⟩⟩ | ⟨_, rfl, _⟩⟩
    · rfl
    · rfl
    · obtain ⟨_, _, rfl⟩ := exists_of_becomeLeader hbl
      rfl
    · rfl
  | appendEntries hcall hr =>
    exact appendEntries_termsFrom ((hs.raft i).log.contiguous hs.indexed) (h.appends _ hcall).2 hr
  | appendEntriesReply _ _ _ hr => exact .of_log (handleAppendEntriesRPCResponse_heard hr).1
  | installSnapshot hcall hr =>
    exact installSnapshot_termsFrom ((hs.raft i).log.contiguous hs.indexed)
      (hs.raft i).first_le_commit (h.snaps _ (.inl hcall)) hr
  | installSnapshotReply => exact .of_log (handleInstallSnapshotRPCResponse_heard ..).1
  | takeBatch hr =>
    obtain ⟨_, rfl, _⟩ := takeBatch_ok hs.ok hs.indexed (hs.raft i) hr
    exact .of_log rfl
  | kill => exact .of_log rfl
  | restart hr =>
    obtain ⟨rf, _, hrf, _, rfl⟩ := exists_of_make hr
    exact .of_log (make_ok hs.ok hs.indexed (hs.raft i) hrf).2.1

/-! ## Runs -/

/-- Every step without a stale send keeps it. -/
theorem noFuture_step {H' : Chron n α} (hs : Sim .any H c) (hs' : Sim .any H' c') (e : Ext H H')
    (h : NoFuture c) {a : Action n α} (hok : NoStaleSend c a) (hst : Step c a c') :
    NoFuture c' := by
  refine ⟨fun i x hx => ?_, fun call hcall => ?_, fun call hcall => ?_⟩
  · have hle : (c.servers i).raft.currentTerm ≤ (c'.servers i).raft.currentTerm := by
      rw [(hs.raft i).cur, (hs'.raft i).cur]
      exact e.cur i
    rcases hst.raft_cases i with heq | hl
    · rw [heq] at hx ⊢
      exact h.log i x hx
    · rcases hl.termsFrom hs h x hx with ⟨x₀, hx₀, ht⟩ | ht
      · rw [ht]
        exact Nat.le_trans (h.log i x₀ hx₀) hle
      · exact ht
  · cases hst.append_origin hcall with
    | old hold => exact h.appends call hold
    | @answered _ call₀ _ _ _ hold => exact h.appends call₀ hold
    | @built i k r args hk hb =>
      have hcont := (hs.raft i).log.contiguous hs.indexed
      obtain ⟨ht, hprev, hentries⟩ := hcont.of_buildRequest_append hb
      rw [hok r hk] at ht
      simp only [ht]
      rw [hcont.getTerm, Option.map_eq_some_iff] at hprev
      obtain ⟨x, hx, hxt⟩ := hprev
      rw [← hxt, hentries]
      exact ⟨h.log i x (List.mem_of_getElem? (window_eq_some_iff.1 hx).2),
        fun x hx => h.log i x (List.mem_of_mem_drop hx)⟩
  · cases hst.snap_origin hcall with
    | old hold hargs =>
      rw [hargs]
      exact h.snaps _ hold
    | @built i k r args hk hb =>
      have hcont := (hs.raft i).log.contiguous hs.indexed
      obtain ⟨ht, hfirst⟩ := of_buildRequest_snapshot hb
      rw [hok r hk] at ht
      rw [hcont.getFirstTerm] at hfirst
      simp only [ht, ← Option.some.inj hfirst]
      refine h.log i _ ?_
      rw [hcont.eq_cons]
      exact List.mem_cons_self

/-- **No entry from the future**, in the runs in which every request is built in the term its
goroutine was started in. -/
theorem no_entry_from_the_future (hc : Reachable NoStaleSend c) : NoFuture c := by
  refine invariant_of_sim (P := NoFuture) ⟨fun i e he => ?_, nofun, ?_⟩ ?_ hc
  · rw [List.mem_singleton.1 he]
    exact Nat.le_refl _
  · rintro call (hcall | ⟨i, x, hx, _⟩)
    · cases hcall
    · cases hx
  · intro H H' c c' a hs hs' e h hok hst
    exact noFuture_step hs hs' e h hok (step_cases hst)

/-- A follower has got an entry, and no server has one of a later term than its own. -/
theorem commitRun_noFuture :
    ⟨some 7, 1, 1⟩ ∈ ((afterRun NoStaleSend commitRun).servers 1).raft.log ∧
      NoFuture (afterRun NoStaleSend commitRun) :=
  ⟨by decide, no_entry_from_the_future (reach_reached commitRun)⟩

/-- A run with stale sends. Server 0 leads term 1 and starts its replication goroutines twice.
Server 1 stands for election in term 2, so that server 0 steps down; server 0 then leads term 3,
appends an entry, commits it with server 1 and compacts its log. Two goroutines of term 1 send to
server 2: the first the entry, which server 2 stores in term 1, the second the snapshot. -/
def futureRun : List (Action 3 Nat) :=
  [ -- server 0 is elected in term 1
    .electionTimeout 0, .requestVote 0, .requestVoteReply 0, .heartBeat 0, .heartBeat 0,
    -- server 1 asks it for its vote in term 2, and it is elected again in term 3
    .electionTimeout 1, .requestVote 1, .electionTimeout 0, .requestVote 3, .requestVoteReply 3,
    .start 0 (some 7) 0,
    -- a goroutine of term 1 sends the entry of term 3
    .replicate 0 1, .appendEntries 0 0,
    -- the entry is committed and compacted, and another goroutine of term 1 sends the snapshot
    .replicate 0 3, .appendEntries 1 0, .appendEntriesReply 1, .takeBatch 0, .sendCommand 0,
    .snapshot 0 1 [] 0, .replicate 0 2]

/-- Server 2 holds an entry of term 3 in term 1, and requests of term 1 carry terms 3. -/
theorem futureRun_future : ∃ c : Cluster 3 Nat, Reachable Always c ∧
    (∃ e ∈ (c.servers 2).raft.log, (c.servers 2).raft.currentTerm < e.term) ∧
    (∃ call ∈ c.appends, ∃ e ∈ call.args.entries, call.args.term < e.term) ∧
    ∃ call ∈ c.snaps, call.args.term < call.args.lastIncludedTerm :=
  ⟨afterRun Always futureRun, reach_reached futureRun, by decide +kernel, by decide +kernel,
    by decide +kernel⟩

end DistLabs
