import DistLabs.Lib.Stream
import DistLabs.Raft.Safety
import Mathlib.Data.List.Perm.Basic

/-!
# The order of messages on `applyChan`

`apply` and `InstallSnapshot` advance `lastApplied` under `rf.mu` and send outside of it. What was
taken under the lock is in order: `Streaming` says that the messages a service received, followed
by those still to be sent in the order they were taken, are one stream that ends at `lastApplied`.
Nothing makes the senders keep that order. `stream_in_order` is about the runs in which they do,
and `overtakenRun` is one in which they do not.
-/

namespace DistLabs

open Lib Chronicle

variable {n : Nat} {α : Type} {H : Chron n α} {c c' : Cluster n α}

/-- What a service expects after the message of index `c`: the next command or a later snapshot. -/
def ApplyMsg.Continues (c : Nat) : ApplyMsg α → Prop
  | .command _ i _ => i = c + 1
  | .snapshot _ _ i => c < i

instance (c : Nat) (msg : ApplyMsg α) : Decidable (msg.Continues c) :=
  match msg with
  | .command _ i _ => inferInstanceAs (Decidable (i = c + 1))
  | .snapshot _ _ i => inferInstanceAs (Decidable (c < i))

/-- A message that continues a stream has a larger index. -/
theorem ApplyMsg.Continues.lt {c : Nat} {msg : ApplyMsg α} (h : msg.Continues c) :
    c < msg.index := by
  cases msg with
  | command _ i _ => exact Nat.lt_of_lt_of_eq (Nat.lt_succ_self c) h.symm
  | snapshot _ _ i => exact h

/-- The messages of a stream, from the index the instance started with. -/
abbrev InStream (start : Nat) (msgs : List (ApplyMsg α)) : Prop :=
  Follows ApplyMsg.index ApplyMsg.Continues start msgs

/-- The message that `apply` makes of an entry. -/
def LogEntry.msg (e : LogEntry α) : ApplyMsg α := .command e.command e.index e.term

/-- The messages that goroutines of a server are about to send. -/
def Server.pending (s : Server n α) : List (ApplyMsg α) :=
  s.applying.map LogEntry.msg ++ s.installing.map Installer.msg

/-- Sends are in order: the message that is sent has the smallest index of those about to be sent,
and `apply` takes a batch only when its log reaches `commitIndex`. The second condition is there
because a goroutine that sends in a later term than its own can make a follower cut its log below
`commitIndex`; then `apply` takes what is left in the backing array behind the end of the log. The
guard is sufficient for a stream in order and not exact: a message that is overtaken may never be
sent, and the entries behind the end of the log may be the right ones. -/
def InOrder (c : Cluster n α) : Action n α → Prop
  | .takeBatch i => ∀ last ∈ (c.servers i).raft.getLastIndex, (c.servers i).raft.commitIndex ≤ last
  | .sendCommand i =>
    ∀ e ∈ (c.servers i).applying.head?, ∀ msg ∈ (c.servers i).pending, e.index ≤ msg.index
  | .sendSnapshot i k =>
    ∀ x ∈ (c.servers i).installing[k]?, ∀ msg ∈ (c.servers i).pending, x.msg.index ≤ msg.index
  | _ => True

instance (c : Cluster n α) (a : Action n α) : Decidable (InOrder c a) :=
  match a with
  | .takeBatch i => inferInstanceAs (Decidable (∀ last ∈ (c.servers i).raft.getLastIndex,
      (c.servers i).raft.commitIndex ≤ last))
  | .sendCommand i => inferInstanceAs (Decidable (∀ e ∈ (c.servers i).applying.head?,
      ∀ msg ∈ (c.servers i).pending, e.index ≤ msg.index))
  | .sendSnapshot i k => inferInstanceAs (Decidable (∀ x ∈ (c.servers i).installing[k]?,
      ∀ msg ∈ (c.servers i).pending, x.msg.index ≤ msg.index))
  | .electionTimeout .. | .heartBeat .. | .start .. | .snapshot .. | .replicate ..
  | .requestVote .. | .requestVoteReply .. | .appendEntries .. | .appendEntriesReply ..
  | .installSnapshot .. | .installSnapshotReply .. | .loseVote .. | .loseAppend .. | .loseSnap ..
  | .kill .. | .restart .. => isTrue trivial

/-! ## What was taken is in order -/

/-- The messages received and those to be sent are a stream that ends at `lastApplied`. -/
def Streaming (s : Server n α) : Prop :=
  ∃ queue : List (ApplyMsg α), queue.Perm s.pending ∧
    InStream s.startIndex (s.delivered ++ queue) ∧
    lastIndex ApplyMsg.index s.startIndex (s.delivered ++ queue) = s.raft.lastApplied

namespace Streaming

variable {s : Server n α} (h : Streaming s)
include h

/-- A change that does not concern the stream. -/
theorem of_raft {rf : Raft n α} {v : Nat} {rs : List (Replicator n)}
    (happ : rf.lastApplied = s.raft.lastApplied) :
    Streaming { s with raft := rf, receivedVotes := v, replicators := rs } := by
  obtain ⟨queue, hperm, hstream, hlast⟩ := h
  exact ⟨queue, hperm, hstream, hlast.trans happ.symm⟩

/-- A heartbeat has no part in the stream. -/
theorem runHeartBeats {i : Fin n} : Streaming (s.runHeartBeats i) := by
  rw [Server.runHeartBeats]
  split
  · exact h.of_raft rfl
  · exact h

/-- The candidate takes a reply. -/
theorem handleVoteReply {s' : Server n α} {args : RequestVoteArgs n} {reply : RequestVoteReply}
    {elected : Bool} (hr : s.handleVoteReply args reply = some (s', elected)) : Streaming s' := by
  rcases handleVoteReply_cases hr with
    ⟨rfl, _⟩ | ⟨_, _, ⟨_, ⟨rfl, _⟩ | ⟨rf, _, hbl, rfl, _⟩⟩ | ⟨_, rfl, _⟩⟩
  · exact h
  · exact h.of_raft rfl
  · obtain ⟨_, _, rfl⟩ := exists_of_becomeLeader hbl
    exact h.of_raft rfl
  · exact h.of_raft rfl

/-- `apply` takes a batch. -/
theorem takeBatch (hidle : s.applying = []) {rf : Raft n α} {batch : List (LogEntry α)}
    (hbatch : ∀ k e, batch[k]? = some e → e.index = s.raft.lastApplied + k + 1)
    (hlast : rf.lastApplied = s.raft.lastApplied + batch.length) :
    Streaming { s with raft := rf, applying := batch } := by
  obtain ⟨queue, hperm, hstream, happ⟩ := h
  have hmsgs : ∀ k msg, (batch.map LogEntry.msg)[k]? = some msg →
      msg.index = s.raft.lastApplied + k + 1 ∧ msg.Continues (s.raft.lastApplied + k) := by
    intro k msg hk
    rw [List.getElem?_map, Option.map_eq_some_iff] at hk
    obtain ⟨e, he, rfl⟩ := hk
    exact ⟨hbatch k e he, hbatch k e he⟩
  obtain ⟨h1, h2⟩ := follows_of_consecutive hmsgs
  refine ⟨queue ++ batch.map LogEntry.msg, ?_, ?_, ?_⟩
  · rw [Server.pending, hidle] at hperm
    exact List.perm_append_comm.trans (hperm.append_left _)
  · rw [← List.append_assoc]
    exact follows_append.2 ⟨hstream, happ ▸ h1⟩
  · rw [← List.append_assoc, lastIndex_append, happ, h2, List.length_map]
    exact hlast.symm

/-- An `InstallSnapshot` handler installs a snapshot. -/
theorem install {rf : Raft n α} {x : Installer n α} (hx : x.msg.Continues s.raft.lastApplied)
    (hlast : rf.lastApplied = x.msg.index) :
    Streaming { s with raft := rf, installing := s.installing ++ [x] } := by
  obtain ⟨queue, hperm, hstream, happ⟩ := h
  refine ⟨queue ++ [x.msg], ?_, ?_, ?_⟩
  · rw [Server.pending, List.map_append, ← List.append_assoc]
    exact hperm.append_right _
  · rw [← List.append_assoc]
    exact follows_append.2 ⟨hstream, happ ▸ hx, trivial⟩
  · rw [← List.append_assoc, lastIndex_append]
    exact hlast.symm

/-- A goroutine sends the message of the smallest index. -/
theorem send {s' : Server n α} (msg : ApplyMsg α) (hmsg : s.pending.Perm (msg :: s'.pending))
    (hmin : ∀ msg' ∈ s.pending, msg.index ≤ msg'.index) (hstart : s'.startIndex = s.startIndex)
    (hdel : s'.delivered = s.delivered ++ [msg]) (hraft : s'.raft = s.raft) : Streaming s' := by
  obtain ⟨queue, hperm, hstream, happ⟩ := h
  -- the smallest of the rest of a stream is its head
  obtain ⟨queue', rfl⟩ := (follows_append.1 hstream).2.eq_cons_of_le
    (fun _ _ hc => ApplyMsg.Continues.lt hc) ((hperm.trans hmsg).mem_iff.2 List.mem_cons_self)
    fun msg' hm => hmin msg' (hperm.mem_iff.1 hm)
  refine ⟨queue', (hperm.trans hmsg).cons_inv, ?_, ?_⟩
  · rw [hstart, hdel, List.append_assoc]
    exact hstream
  · rw [hstart, hdel, List.append_assoc, hraft]
    exact happ

/-- What the service received so far. -/
theorem delivered_inStream : InStream s.startIndex s.delivered := by
  obtain ⟨queue, _, hstream, _⟩ := h
  exact (follows_append.1 hstream).1

end Streaming

/-! ## Steps -/

/-- The entries of a batch that lies inside the log. -/
theorem takeBatch_index (hok : H.OK) (hidx : Indexed H) {i : Fin n} {rf rf' : Raft n α}
    (h : RaftOK .any H i rf) (hlog : ∀ last ∈ rf.getLastIndex, rf.commitIndex ≤ last)
    {batch : List (LogEntry α)} (hr : rf.takeBatch = some (rf', batch)) :
    (∀ k e, batch[k]? = some e → e.index = rf.lastApplied + k + 1) ∧
      rf'.lastApplied = rf.lastApplied + batch.length := by
  have htip := hok.tip.tip i
  have hlen := h.log.length htip
  have hci := hlog _ (h.log.getLastIndex htip hidx)
  have h1 := h.first_le
  have h2 := h.applied_le
  simp only [Raft.takeBatch, h.log.getFirstIndex, Option.bind_eq_bind, Option.bind_some,
    Option.pure_def] at hr
  split at hr
  · cases hr
  split at hr
  · cases hr
  split at hr
  · cases hr
  cases hr
  constructor
  · intro k e hk
    rw [List.getElem?_take] at hk
    split at hk
    · next hlt =>
      rw [List.getElem?_drop, List.getElem?_append_left (by omega),
        show rf.lastApplied + 1 - (sentinel rf.log).index + k =
          rf.lastApplied - (sentinel rf.log).index + k + 1 by omega, h.log.getElem?_succ] at hk
      rw [hidx.path hk]
      omega
    · cases hk
  · simp only [List.length_take, List.length_drop, List.length_append]
    omega

/-- What holds of a server that a step replaces, and of all others before it. -/
theorem forall_servers_set {P : Server n α → Prop} {p : Fin n} {s' : Server n α}
    (h : ∀ i, P (c.servers i)) (hp : P s') : ∀ i, P (Function.update c.servers p s' i) :=
  (Function.forall_update_iff c.servers fun _ s => P s).2 ⟨hp, fun i _ => h i⟩

/-- A step that is in order keeps every stream. -/
theorem streaming_step (hs : Sim .any H c) {a : Action n α} (hin : InOrder c a)
    (hst : c.step a = some c') (h : ∀ i, Streaming (c.servers i)) :
    ∀ i, Streaming (c'.servers i) := by
  cases step_cases hst with
  | @electionTimeout i raft args hel =>
    obtain ⟨_, hkept, _⟩ := startElection_ok hs.ok hs.indexed (hs.raft i) hel
    exact forall_servers_set h ((h i).of_raft hkept.lastApplied)
  | heartBeat => exact forall_servers_set h (h _).runHeartBeats
  | @start i _ _ _ _ raft hstart =>
    obtain ⟨_, hh, _⟩ := start_ok hs.ok hs.indexed (hs.raft i) hstart
    exact forall_servers_set h
      ((h i).of_raft (s := c.servers i) hh.kept.lastApplied).runHeartBeats
  | @snapshot i _ _ raft msg hmsg hsn =>
    obtain ⟨_, happ, _⟩ := snapshot_ok hs.ok hs.indexed (hs.raft i)
      ((hs.goroutines i).delivered msg hmsg) hsn
    exact forall_servers_set h ((h i).of_raft happ)
  | replicateIdle | replicateAppend | replicateSnapshot =>
    exact forall_servers_set h ((h _).of_raft rfl)
  | @requestVote k call raft reply hk hrv =>
    have hcall := hs.votes call (List.mem_of_getElem? hk)
    obtain ⟨z, hreq⟩ := hcall.req
    obtain ⟨_, _, _, hkept, _⟩ := requestVote_ok hs.ok hs.indexed (hs.raft call.callee)
      (by rw [hcall.candidateId]; exact hreq) hrv
    exact forall_servers_set h ((h _).of_raft hkept.lastApplied)
  | requestVoteReply _ _ _ hh => exact forall_servers_set h ((h _).handleVoteReply hh)
  | elected _ _ _ hh => exact forall_servers_set h ((h _).handleVoteReply hh)
  | @appendEntries k g call raft reply hk hae =>
    obtain ⟨V, j, hargs, _⟩ := hs.appends call (List.mem_of_getElem? hk)
    obtain ⟨_, hh, _⟩ := appendEntries_ok hs.ok hs.indexed (hs.raft call.callee) hargs hae
    exact forall_servers_set h ((h _).of_raft hh.kept.lastApplied)
  | @appendEntriesReply k call reply raft again assigned hk hr _ hae =>
    obtain ⟨V, j, hargs, hreply⟩ := hs.appends call (List.mem_of_getElem? hk)
    obtain ⟨_, hh, _⟩ := handleAppendEntriesRPCResponse_ok hs.ok hs.indexed
      (hs.raft call.caller) hargs (hreply reply hr) hae
    exact forall_servers_set h ((h _).of_raft hh.kept.lastApplied)
  | @installRefused k g call raft reply hk his =>
    obtain ⟨⟨V, hargs⟩, _⟩ := hs.snaps call (List.mem_of_getElem? hk)
    obtain ⟨_, _, _, hkept⟩ := installSnapshot_ok hs.ok hs.indexed (hs.raft call.callee) hargs
      (.inl trivial) his
    exact forall_servers_set h ((h _).of_raft hkept.lastApplied)
  | @installSnapshot k g call raft reply msg hk his =>
    obtain ⟨⟨V, hargs⟩, _⟩ := hs.snaps call (List.mem_of_getElem? hk)
    have hraft := hs.raft call.callee
    obtain ⟨_, _, _, rfl, hlt, _, happ, _⟩ := installSnapshot_ok hs.ok hs.indexed hraft hargs
      (.inl trivial) his
    exact forall_servers_set h ((h _).install (Nat.lt_of_le_of_lt hraft.applied_le hlt) happ)
  | @installSnapshotReply k call reply hk hr _ =>
    obtain ⟨⟨V, hargs⟩, hreply⟩ := hs.snaps call (List.mem_of_getElem? hk)
    obtain ⟨_, hh⟩ := handleInstallSnapshotRPCResponse_ok hs.ok hs.indexed
      (hs.raft call.caller) hargs (hreply reply hr)
    exact forall_servers_set h ((h _).of_raft hh.kept.lastApplied)
  | @takeBatch i raft batch hidle htb =>
    obtain ⟨h1, h2⟩ := takeBatch_index hs.ok hs.indexed (hs.raft i) hin htb
    exact forall_servers_set h ((h i).takeBatch hidle h1 h2)
  | @sendCommand i e es happ =>
    refine forall_servers_set h ((h i).send e.msg ?_ ?_ rfl rfl rfl)
    · rw [Server.pending, happ]
      exact List.Perm.refl _
    · exact hin e (by rw [happ]; rfl)
  | @sendSnapshot i k x hk =>
    refine forall_servers_set h ((h i).send x.msg ?_ (hin x hk) rfl rfl rfl)
    obtain ⟨hlt, rfl⟩ := List.getElem?_eq_some_iff.1 hk
    have hperm := (List.getElem_cons_eraseIdx_perm hlt).symm.map Installer.msg
    exact (hperm.append_left _).trans List.perm_middle
  | kill => exact forall_servers_set h ((h _).of_raft rfl)
  | @restart i g s' hmake =>
    obtain ⟨rf, first, hrf, hfirst, rfl⟩ := exists_of_make hmake
    obtain ⟨_, _, hmk⟩ := make_eq hs.ok hs.indexed (hs.raft i) g
    rw [hmk] at hrf
    cases hrf
    -- `Make` reads `log[0].Index` off the log that it sets `lastApplied` from
    have hstart : first = (sentinel (c.servers i).raft.log).index :=
      Option.some.inj (hfirst.symm.trans (hs.raft i).log.getFirstIndex)
    exact forall_servers_set h ⟨[], List.Perm.refl _, trivial, hstart⟩
  | startRefused | loseVote | loseAppend | loseSnap => exact h

/-- **The apply stream**, in the runs in which sends are in order: what a service received from an
instance is a stream. -/
theorem stream_in_order (hc : Reachable InOrder c) (i : Fin n) :
    InStream (c.servers i).startIndex (c.servers i).delivered := by
  have h : (∃ H, Sim .any H c) ∧ ∀ i, Streaming (c.servers i) := by
    induction hc with
    | init => exact ⟨⟨_, sim_init⟩, fun i => ⟨[], List.Perm.refl _, trivial, rfl⟩⟩
    | step _ hin hst ih =>
      obtain ⟨⟨H, hs⟩, hstr⟩ := ih
      obtain ⟨H', _, hs'⟩ := sim_step hs any_admits hst
      exact ⟨⟨H', hs'⟩, streaming_step hs hin hst hstr⟩
  exact (h.2 i).delivered_inStream

/-- Server 0 commits an entry and sends it with its commit to server 2, where `apply` takes it.
Then server 0 commits a second entry, takes a snapshot of both and sends it to server 2, which
installs it. -/
def overtakingRun : List (Action 3 Nat) :=
  commitRun ++ [.appendEntriesReply 0, .replicate 0 0, .appendEntries 0 0, .takeBatch 2,
    .loseAppend 0, .start 0 (some 8) 0, .replicate 0 0, .appendEntries 0 0, .appendEntriesReply 0,
    .takeBatch 0, .sendCommand 0, .sendCommand 0, .snapshot 0 2 [42] 0, .replicate 0 0,
    .installSnapshot 0 0]

/-- A command and then a snapshot, which arrive in this order. -/
theorem overtakingRun_in_order : ∃ c : Cluster 3 Nat, Reachable InOrder c ∧
    (c.servers 2).delivered = [.command (some 7) 1 1, .snapshot [42] 1 2] ∧
    InStream (c.servers 2).startIndex (c.servers 2).delivered :=
  ⟨afterRun InOrder (overtakingRun ++ [.sendCommand 2, .sendSnapshot 2 0]), reach_reached _,
    by decide +kernel, stream_in_order (reach_reached _) 2⟩

/-- The snapshot overtakes the command that was taken before it. -/
theorem overtakenRun_out_of_order : ∃ c : Cluster 3 Nat, Reachable Always c ∧
    (c.servers 2).startIndex = 0 ∧
    (c.servers 2).delivered = [.snapshot [42] 1 2, .command (some 7) 1 1] ∧
    ¬ InStream (c.servers 2).startIndex (c.servers 2).delivered :=
  ⟨afterRun Always (overtakingRun ++ [.sendSnapshot 2 0, .sendCommand 2]), reach_reached _,
    by decide +kernel, by decide +kernel, by decide +kernel⟩

end DistLabs
