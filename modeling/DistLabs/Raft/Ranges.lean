import DistLabs.Raft.Contiguous
import DistLabs.Raft.Local
import DistLabs.Raft.Safety

/-!
# The index arithmetic is in range

In every run, logs are contiguous and reach up from at most `commitIndex`, requests carry
consecutive indices, and a leader's `nextIndex` and `matchIndex` stay within its log (`InRange`).
So no subscript, slice bound or length in the RPC handlers, in the replication loop and in the
handler of its replies is out of range (`NoPanic`).

The bounds of a leader are an induction over runs (`Paced`). A stale reply does not break them: a
leader only takes replies to requests that it built in its current term, and its log only grew
since then.
-/

namespace DistLabs

open Lib Chronicle

variable {n : Nat} {α : Type} {m : Mode} {H H' : Chron n α} {c c' : Cluster n α} {i : Fin n}
  {rf rf' : Raft n α}

/-! ## Handlers that do not panic -/

namespace Contiguous

variable (h : Contiguous rf.log)
include h

/-- `RequestVote` does not panic. -/
theorem isSome_requestVote (args : RequestVoteArgs n) : (rf.requestVote args).isSome := by
  rw [Raft.requestVote]
  split
  · rfl
  obtain ⟨e, he, _⟩ := h.getLast?
  have hi : (rf.stepDown args.term).getLastIndex = some e.index := by
    rw [Raft.getLastIndex, stepDown_log, he]
    rfl
  have ht : (rf.stepDown args.term).getLastTerm = some e.term := by
    rw [Raft.getLastTerm, stepDown_log, he]
    rfl
  rw [Raft.decideVote, hi, ht]
  simp only [Option.bind_eq_bind, Option.bind_some]
  split <;> rfl

/-- `AppendEntries` does not panic. -/
theorem isSome_appendEntries (args : AppendEntriesArgs n α) (g : Nat) :
    (rf.appendEntries args g).isSome := by
  obtain ⟨_, _, hr, _⟩ := h.exists_appendEntries args g
  rw [hr]
  rfl

/-- `InstallSnapshot`, on a log that does not start above `commitIndex`. -/
theorem isSome_installSnapshot (hfirst : (sentinel rf.log).index ≤ rf.commitIndex)
    (args : InstallSnapshotArgs n) (g : Nat) : (rf.installSnapshot args g).isSome := by
  obtain ⟨_, _, _, hr, _⟩ := h.exists_installSnapshot hfirst args g
  rw [hr]
  rfl

/-- The request for a server whose `nextIndex` is within the log. -/
theorem isSome_buildRequest {me server : Fin n}
    (hnext : rf.state = .leader → rf.nextIndex server ≤ nextOf rf.log) (term : Nat) :
    (rf.buildRequest me server term).isSome := by
  simp only [Raft.buildRequest, h.getFirstIndex, h.getNextIndex, h.getFirstTerm,
    Option.bind_eq_bind, Option.bind_some]
  split
  · rfl
  next hst =>
  have hle := hnext (not_not.1 hst)
  split
  · rfl
  next hgt =>
  rw [nextOf] at hle
  rw [if_neg (by rw [nextOf]; omega)]
  obtain ⟨t, ht⟩ :=
    h.exists_getTerm (i := rf.nextIndex server - 1) (by omega) (by rw [nextOf]; omega)
  rw [ht]
  rfl

/-- The reply to a request that started within the log. -/
theorem isSome_handleAppendEntriesRPCResponse
    (hfirst : (sentinel rf.log).index ≤ rf.commitIndex) {args : AppendEntriesArgs n α}
    (hprev : rf.state = .leader → rf.currentTerm = args.term → args.prevLogIndex ≤ nextOf rf.log)
    (me server : Fin n) (reply : AppendEntriesReply) :
    (rf.handleAppendEntriesRPCResponse me server args reply).isSome := by
  rw [Raft.handleAppendEntriesRPCResponse]
  split
  swap
  · rfl
  next hcond =>
  split
  swap
  · split <;> rfl
  split
  · have hlog : Contiguous (rf.matchUpTo server (args.prevLogIndex + args.entries.length)).log := h
    obtain ⟨_, _, hadv⟩ := hlog.exists_advanceCommit hfirst me
    rw [hadv]
    rfl
  · obtain ⟨e, _, hend, _⟩ := h.exists_conflictEnd reply.conflictTerm (hprev hcond.1 hcond.2)
    obtain ⟨last, hlast⟩ : ∃ last, (if reply.conflictTerm > 0 then
        rf.conflictEnd (sentinel rf.log).index reply.conflictTerm args.prevLogIndex
        else some (-1)) = some last := by
      split
      · exact ⟨e, hend⟩
      · exact ⟨-1, rfl⟩
    rw [backUp_eq h.getFirstIndex hlast]
    rfl

/-- The bound of the slice `rf.log[:insertIndex-firstIndex]` that `AppendEntries` keeps. -/
theorem slice_bound {args : AppendEntriesArgs n α}
    (hterm : rf.getTerm args.prevLogIndex = some args.prevLogTerm) {ins : Nat}
    {rest : List (LogEntry α)}
    (hskip : rf.skipMatched args.entries (args.prevLogIndex + 1) = some (ins, rest)) :
    (sentinel rf.log).index ≤ ins ∧ ins - (sentinel rf.log).index ≤ rf.log.length := by
  obtain ⟨hfirst, hlast⟩ := h.bounds_of_getTerm hterm
  obtain ⟨k, hr, hs⟩ := h.exists_skipMatched args.entries (Nat.le_succ_of_le hfirst) hlast
  rw [hr] at hskip
  cases hskip
  have := hs.next_le
  rw [nextOf] at this
  omega

end Contiguous

/-! ## The bounds of a leader -/

/-- What a leader keeps about its peers is within its log. -/
def Raft.Paced (rf : Raft n α) : Prop :=
  rf.state = .leader →
    ∀ p, 0 < rf.nextIndex p ∧ rf.nextIndex p ≤ nextOf rf.log ∧ rf.matchIndex p < nextOf rf.log

/-- Leaders are within their logs, and replies name an index up to where their request started. -/
structure Paced (c : Cluster n α) : Prop where
  raft : ∀ i, (c.servers i).raft.Paced
  replies : ∀ call ∈ c.appends, ∀ r, call.reply = some r → r.conflictIndex ≤ call.args.prevLogIndex

/-- The log of a leader ends where that of its term does. -/
theorem RaftOK.nextOf_ledger (hok : H.OK) (h : RaftOK m H i rf) (hst : rf.state = .leader) :
    nextOf rf.log = (H.ledger rf.currentTerm).length + 1 := by
  rw [h.log.nextOf (hok.tip.tip i), (h.leader hst).tip_index, h.cur]

/-- What a request of a leader's current term was read from is still its log. -/
theorem RaftOK.lt_nextOf (hok : H.OK) (h : RaftOK m H i rf) (hst : rf.state = .leader)
    {t V k : Nat} (hterm : rf.currentTerm = t) (hle : t ≤ V) (hcur : V ≤ H.cur i)
    (hk : k ≤ (H.ledger V).length) : k < nextOf rf.log := by
  rw [h.nextOf_ledger hok hst, h.cur, ← h.eq_cur hterm hle hcur]
  exact Nat.lt_succ_of_le hk

/-- While a server leads its log does not get shorter. -/
theorem Raft.Paced.leadsOn (hp : rf.Paced) (hl : LeadsOn rf rf')
    (hlen : rf.state = .leader → rf'.state = .leader → rf'.currentTerm = rf.currentTerm →
      nextOf rf.log ≤ nextOf rf'.log) : rf'.Paced := by
  intro hst p
  obtain ⟨hst₀, hct, hnext, hmatch⟩ := hl hst
  obtain ⟨h1, h2, h3⟩ := hp hst₀ p
  have hle := hlen hst₀ hst hct
  rw [hnext, hmatch]
  exact ⟨h1, Nat.le_trans h2 hle, Nat.lt_of_lt_of_le h3 hle⟩

/-- A leader hears from a server. -/
theorem Raft.Paced.heard (hp : rf.Paced) {server : Fin n} {next k : Nat}
    (hh : Heard rf rf' server next k) (hlog : rf'.log = rf.log) (h0 : 0 < next)
    (hnext : next ≤ nextOf rf.log) (hk : k < nextOf rf.log) : rf'.Paced := by
  intro _ p
  rw [hh.nextIndex, hh.matchIndex, hlog]
  by_cases hps : p = server
  · subst hps
    rw [Function.update_self, Function.update_self]
    exact ⟨h0, hnext, hk⟩
  · rw [Function.update_of_ne hps, Function.update_of_ne hps]
    exact hp hh.leader p

/-- Only leaders have to keep their `nextIndex` in range. -/
theorem paced_of_state {s : RuleState} (h : rf.state = s) (hs : s ≠ .leader) : rf.Paced :=
  fun hst => absurd (h.symm.trans hst) hs

/-- A leader that handles `AppendEntries` keeps what it knows about its peers or leads no more, and
the reply names an index up to where the request started. -/
theorem appendEntries_leadsOn (h : Contiguous rf.log) {args : AppendEntriesArgs n α} {g : Nat}
    {reply : AppendEntriesReply} (hr : rf.appendEntries args g = some (rf', reply)) :
    LeadsOn rf rf' ∧ reply.conflictIndex ≤ args.prevLogIndex := by
  obtain ⟨_, _, hr', hcase⟩ := h.exists_appendEntries args g
  rw [hr] at hr'
  cases hr'
  rcases hcase with ⟨_, rfl, _, h0⟩ | ⟨_, _, _, hrec⟩
  · exact ⟨.refl _, by rw [h0]; exact Nat.zero_le _⟩
  cases hrec with
  | below => exact ⟨.of_follower rfl, Nat.zero_le _⟩
  | short hprev => exact ⟨.of_follower rfl, hprev⟩
  | conflict _ _ _ hle => exact ⟨.of_follower rfl, hle⟩
  | stored _ _ hs => exact ⟨.of_follower hs.state, Nat.zero_le _⟩

/-- A leader that handles `InstallSnapshot` keeps what it knows about its peers, or leads no
more. -/
theorem installSnapshot_leadsOn (h : Contiguous rf.log)
    (hfirst : (sentinel rf.log).index ≤ rf.commitIndex) {args : InstallSnapshotArgs n} {g : Nat}
    {reply : InstallSnapshotReply} {msg : Option (ApplyMsg α)}
    (hr : rf.installSnapshot args g = some (rf', reply, msg)) : LeadsOn rf rf' := by
  obtain ⟨_, _, _, hr', hcase⟩ := h.exists_installSnapshot hfirst args g
  rw [hr] at hr'
  cases hr'
  rcases hcase with ⟨rfl, _⟩ | ⟨_, hrep⟩
  · exact .refl rf'
  · cases hrep with
    | known | whole | suffix => exact .of_follower rfl

section
variable (hs : Sim .any H c)
include hs

/-- A request of the term in which its sender leads ends within the sender's log. -/
theorem append_within {call : AppendCall n α} (hcall : call ∈ c.appends)
    (hst : (c.servers call.caller).raft.state = .leader)
    (hterm : (c.servers call.caller).raft.currentTerm = call.args.term) :
    call.args.prevLogIndex + call.args.entries.length <
      nextOf (c.servers call.caller).raft.log := by
  obtain ⟨V, j, ha, _⟩ := hs.appends call hcall
  rw [ha.slice.length]
  exact (hs.raft call.caller).lt_nextOf hs.ok hst hterm ha.term_le ha.cur ha.le

/-- A leader has sent no snapshot from behind the end of its log. -/
theorem snap_within {call : SnapCall n} (hcall : call ∈ c.snaps)
    (hterm : (c.servers call.caller).raft.currentTerm = call.args.term)
    (hst : (c.servers call.caller).raft.state = .leader) :
    call.args.lastIncludedIndex < nextOf (c.servers call.caller).raft.log := by
  obtain ⟨⟨V, ha⟩, _⟩ := hs.snaps call hcall
  exact (hs.raft call.caller).lt_nextOf hs.ok hst hterm ha.term_le ha.cur ha.le

/-- Every handler keeps a leader within its log. -/
theorem LocalStep.paced (hs' : Sim .any H' c') (e : Ext H H') (hp : Paced c)
    (hl : LocalStep c i (c'.servers i).raft) : (c'.servers i).raft.Paced := by
  have hraft := hs.raft i
  have hcont := hraft.log.contiguous hs.indexed
  have hlen : (c.servers i).raft.state = .leader → (c'.servers i).raft.state = .leader →
      (c'.servers i).raft.currentTerm = (c.servers i).raft.currentTerm →
      nextOf (c.servers i).raft.log ≤ nextOf (c'.servers i).raft.log := by
    intro hst hst' hct
    rw [hraft.nextOf_ledger hs.ok hst, (hs'.raft i).nextOf_ledger hs'.ok hst', hct]
    exact Nat.succ_le_succ (e.length _)
  have hon : LeadsOn (c.servers i).raft (c'.servers i).raft → (c'.servers i).raft.Paced :=
    fun hl => (hp.raft i).leadsOn hl hlen
  generalize (c'.servers i).raft = rf' at hl hlen hon ⊢
  cases hl with
  | startElection hr => exact paced_of_state (startElection_log hr).2 (by simp)
  | start hr => exact hon (start_log hcont.ne_nil hr).2.2
  | snapshot _ hr => exact hon (snapshot_leadsOn hr)
  | requestVote hr => exact hon (requestVote_log hr).2
  | voteReply hr =>
    rcases handleVoteReply_cases hr with
      ⟨rfl, _⟩ | ⟨_, _, ⟨_, ⟨rfl, _⟩ | ⟨_, _, hbl, rfl, _⟩⟩ | ⟨_, rfl, _⟩⟩
    · exact hp.raft i
    · exact hp.raft i
    · -- a new leader starts at the end of its log
      obtain ⟨next, hnext, rfl⟩ := exists_of_becomeLeader hbl
      obtain rfl := Option.some.inj (hcont.getNextIndex.symm.trans hnext)
      have hfirst := hcont.first_lt
      exact fun _ _ => ⟨by simp only; omega, Nat.le_refl _, by simp only; omega⟩
    · exact paced_of_state (s := .follower) rfl (by simp)
  | appendEntries _ hr => exact hon (appendEntries_leadsOn hcont hr).1
  | @appendEntriesReply call reply _ _ _ hcall hr hi h =>
    subst hi
    obtain ⟨hlog, hcase⟩ := handleAppendEntriesRPCResponse_heard h
    rcases hcase with hl | ⟨hterm, next, k, hheard, hknown⟩
    · exact hon hl
    have hwithin := append_within hs hcall hheard.leader hterm
    obtain ⟨_, _, hmatch⟩ := hp.raft call.caller hheard.leader call.callee
    have hconf := hp.replies call hcall reply hr
    rcases hknown with ⟨_, rfl, rfl⟩ | ⟨hpos, hnext, rfl⟩
    · exact (hp.raft call.caller).heard hheard hlog (Nat.succ_pos _) (by omega) (by omega)
    · have := hnext hconf
      exact (hp.raft call.caller).heard hheard hlog hpos (by omega) hmatch
  | installSnapshot _ hr =>
    have hfirst := hraft.first_le_commit
    exact hon (installSnapshot_leadsOn hcont hfirst hr)
  | @installSnapshotReply call reply hcall hi =>
    subst hi
    obtain ⟨hlog, hcase⟩ := handleInstallSnapshotRPCResponse_heard (c.servers call.caller).raft
      call.callee call.args reply
    rcases hcase with hl | ⟨hterm, _, hheard⟩
    · exact hon hl
    have hwithin := snap_within hs hcall hterm hheard.leader
    obtain ⟨_, _, hmatch⟩ := hp.raft call.caller hheard.leader call.callee
    exact (hp.raft call.caller).heard hheard hlog (Nat.succ_pos _) (by omega) (by omega)
  | takeBatch hr =>
    obtain ⟨_, rfl, _⟩ := takeBatch_ok hs.ok hs.indexed hraft hr
    exact hon fun hl => ⟨hl, rfl, rfl, rfl⟩
  | kill => exact paced_of_state (s := .dead) rfl (by simp)
  | restart hr =>
    obtain ⟨rf, _, hrf, _, rfl⟩ := exists_of_make hr
    exact paced_of_state (make_ok hs.ok hs.indexed hraft hrf).2.2.2 (by simp)

/-- Every step keeps the indices of all leaders in range. -/
theorem paced_step (hs' : Sim .any H' c') (e : Ext H H') (hp : Paced c) {a : Action n α}
    (hst : Step c a c') : Paced c' := by
  refine ⟨fun i => ?_, fun call hcall r hr => ?_⟩
  · rcases hst.raft_cases i with heq | hl
    · rw [heq]
      exact hp.raft i
    · exact hl.paced hs hs' e hp
  · cases hst.append_origin hcall with
    | old hold => exact hp.replies call hold r hr
    | @answered _ call₀ _ _ _ hold h =>
      cases hr
      exact (appendEntries_leadsOn ((hs.raft call₀.callee).log.contiguous hs.indexed) h).2
    | built => cases hr

end

/-- Leaders stay within their logs. -/
theorem paced_of_reachable (hc : Reachable Always c) : Paced c := by
  refine invariant_of_sim (P := Paced)
    ⟨fun i => paced_of_state (s := .follower) rfl (by simp), nofun⟩ ?_ hc
  intro H H' c c' a hs hs' e hp _ hst
  exact paced_step hs hs' e hp (step_cases hst)

/-! ## All indices -/

/-- The indices that the code computes with. -/
structure InRange (c : Cluster n α) : Prop where
  contiguous : ∀ i, Contiguous (c.servers i).raft.log
  first_le : ∀ i, (sentinel (c.servers i).raft.log).index ≤ (c.servers i).raft.commitIndex
  entries : ∀ call ∈ c.appends, ∀ (k : Nat) (e : LogEntry α), call.args.entries[k]? = some e →
    e.index = call.args.prevLogIndex + 1 + k
  leader : ∀ i, (c.servers i).raft.state = .leader → ∃ last ∈ (c.servers i).raft.getLastIndex,
    ∀ p, 1 ≤ (c.servers i).raft.nextIndex p ∧ (c.servers i).raft.nextIndex p ≤ last + 1 ∧
      (c.servers i).raft.matchIndex p ≤ last

/-- No subscript, slice bound or length is out of range: in `RequestVote`, `AppendEntries` and
`InstallSnapshot` on any request, in the request that a replication goroutine builds for any
server, and in the handler of a reply in flight. `slice` is the bound of the slice that
`AppendEntries` keeps of its log. -/
structure NoPanic (c : Cluster n α) : Prop where
  requestVote : ∀ i args, ((c.servers i).raft.requestVote args).isSome
  appendEntries : ∀ i args g, ((c.servers i).raft.appendEntries args g).isSome
  slice : ∀ i (args : AppendEntriesArgs n α) ins rest,
    (c.servers i).raft.getTerm args.prevLogIndex = some args.prevLogTerm →
    (c.servers i).raft.skipMatched args.entries (args.prevLogIndex + 1) = some (ins, rest) →
    (sentinel (c.servers i).raft.log).index ≤ ins ∧
      ins - (sentinel (c.servers i).raft.log).index ≤ (c.servers i).raft.log.length
  installSnapshot : ∀ i args g, ((c.servers i).raft.installSnapshot args g).isSome
  buildRequest : ∀ i server term, ((c.servers i).raft.buildRequest i server term).isSome
  appendEntriesReply : ∀ call ∈ c.appends, ∀ reply, call.reply = some reply →
    ((c.servers call.caller).raft.handleAppendEntriesRPCResponse call.caller call.callee call.args
      reply).isSome

/-- The entries of a request carry the indices after the one it starts at. -/
theorem Slice.index_eq (hidx : Indexed H) {args : AppendEntriesArgs n α} {V j k : Nat}
    (ha : Slice H args V j) {e : LogEntry α} (he : args.entries[k]? = some e) :
    e.index = args.prevLogIndex + 1 + k := by
  rw [ha.entries, List.getElem?_drop, List.getElem?_take] at he
  split at he
  · rw [hidx _ _ _ he]
    omega
  · cases he

/-- **Index arithmetic is always in range.** -/
theorem index_arithmetic_in_range (hc : Reachable Always c) : InRange c ∧ NoPanic c := by
  obtain ⟨H, hs⟩ := exists_sim_any hc
  have hp := paced_of_reachable hc
  have hcont : ∀ i, Contiguous (c.servers i).raft.log := fun i =>
    (hs.raft i).log.contiguous hs.indexed
  have hfirst : ∀ i, (sentinel (c.servers i).raft.log).index ≤ (c.servers i).raft.commitIndex :=
    fun i => (hs.raft i).first_le_commit
  refine ⟨⟨hcont, hfirst, fun call hcall k e he => ?_, fun i hst => ?_⟩, ?_⟩
  · obtain ⟨V, j, ha, _⟩ := hs.appends call hcall
    exact ha.slice.index_eq hs.indexed he
  · refine ⟨_, (hcont i).getLastIndex, fun p => ?_⟩
    obtain ⟨h1, h2, h3⟩ := hp.raft i hst p
    omega
  · exact
      { requestVote := fun i => (hcont i).isSome_requestVote
        appendEntries := fun i => (hcont i).isSome_appendEntries
        slice := fun i _ _ _ hterm hskip => (hcont i).slice_bound hterm hskip
        installSnapshot := fun i => (hcont i).isSome_installSnapshot (hfirst i)
        buildRequest := fun i server =>
          (hcont i).isSome_buildRequest fun hst => (hp.raft i hst server).2.1
        appendEntriesReply := fun call hcall reply _ =>
          (hcont _).isSome_handleAppendEntriesRPCResponse (hfirst _)
            (fun hst hterm => by
              have := append_within hs hcall hst hterm
              omega) _ _ reply }

/-- The reply of server 1 is on its way, and its leader takes it. -/
theorem commitRun_in_range :
    ((afterRun Always commitRun).servers 0).raft.state = .leader ∧
      (afterRun Always commitRun).appends.length = 1 ∧
      InRange (afterRun Always commitRun) ∧ NoPanic (afterRun Always commitRun) :=
  ⟨by decide, by decide, index_arithmetic_in_range (reach_reached commitRun)⟩

end DistLabs
