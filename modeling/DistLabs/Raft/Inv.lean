import DistLabs.Lib.ChronicleLog
import DistLabs.Raft.Cluster

/-!
# The invariant that ties a cluster to its chronicle

`Sim H c` says that the cluster `c` is a state of the abstract protocol whose history is `H`. A
server's log is its sentinel (the last entry of its snapshot) followed by the part above it of the
abstract log that ends at the server's last position (`LogOK`). The sentinel itself need not lie on
that abstract log: `InstallSnapshot` keeps a longer log without comparing terms. `SentinelOK` says
that such a sentinel is at least part of something committed.

A request carries a slice of the log of some leader `V`. The term it is sent with may be smaller
than `V`: a replication goroutine keeps the term it was started with but reads the log later.

Runs without one or both of these peculiarities have stronger invariants. A `Mode` says which of
them the runs under consideration may show, and `Sim` is stated for a mode.
-/

namespace DistLabs

open Lib

variable {n : Nat} {α : Type}

instance : HasTerm (LogEntry α) := ⟨LogEntry.term⟩

/-! ## What a run may do -/

/-- The goroutine that sends was started in the term its server is in. The guard is sufficient for
safety and not exact: a goroutine of an earlier term does no harm if nobody accepts what it sends,
and such runs are excluded as well. -/
def NoStaleSend (c : Cluster n α) : Action n α → Prop
  | .replicate i k => ∀ r ∈ (c.servers i).replicators[k]?,
      r.currentTerm = (c.servers i).raft.currentTerm
  | _ => True

instance (c : Cluster n α) : (a : Action n α) → Decidable (NoStaleSend c a)
  | .replicate i k => inferInstanceAs (Decidable (∀ r ∈ (c.servers i).replicators[k]?,
      r.currentTerm = (c.servers i).raft.currentTerm))
  | .electionTimeout .. | .heartBeat .. | .start .. | .snapshot .. | .requestVote ..
  | .requestVoteReply .. | .appendEntries .. | .appendEntriesReply .. | .installSnapshot ..
  | .installSnapshotReply .. | .loseVote .. | .loseAppend .. | .loseSnap .. | .takeBatch ..
  | .sendCommand .. | .sendSnapshot .. | .kill .. | .restart .. => isTrue trivial

/-- If the server installs the snapshot below the end of its log, then the snapshot agrees with the
entry at its index. -/
def Raft.NoConflict (rf : Raft n α) (args : InstallSnapshotArgs n) : Prop :=
  rf.state ≠ .dead → rf.currentTerm ≤ args.term → rf.commitIndex < args.lastIncludedIndex →
    (∃ last ∈ rf.getLastIndex, args.lastIncludedIndex < last) →
    rf.getTerm args.lastIncludedIndex = some args.lastIncludedTerm

instance (rf : Raft n α) (args : InstallSnapshotArgs n) : Decidable (rf.NoConflict args) :=
  inferInstanceAs (Decidable (_ → _))

/-- No snapshot is installed over a log that conflicts with it. -/
def NoConflictInstall (c : Cluster n α) : Action n α → Prop
  | .installSnapshot k _ => ∀ call ∈ c.snaps[k]?, (c.servers call.callee).raft.NoConflict call.args
  | _ => True

instance (c : Cluster n α) : (a : Action n α) → Decidable (NoConflictInstall c a)
  | .installSnapshot k _ => inferInstanceAs (Decidable (∀ call ∈ c.snaps[k]?,
      (c.servers call.callee).raft.NoConflict call.args))
  | .electionTimeout .. | .heartBeat .. | .start .. | .snapshot .. | .replicate ..
  | .requestVote .. | .requestVoteReply .. | .appendEntries .. | .appendEntriesReply ..
  | .installSnapshotReply .. | .loseVote .. | .loseAppend .. | .loseSnap .. | .takeBatch ..
  | .sendCommand .. | .sendSnapshot .. | .kill .. | .restart .. => isTrue trivial

/-- Which peculiarities the runs under consideration may show. -/
structure Mode where
  /-- A replication goroutine may send after its server entered a later term. -/
  staleSend : Prop
  /-- A snapshot may be installed over a log that conflicts with it. -/
  conflictInstall : Prop

/-- The steps that a mode admits. -/
def Mode.Admits (m : Mode) (c : Cluster n α) (a : Action n α) : Prop :=
  (m.staleSend ∨ NoStaleSend c a) ∧ (m.conflictInstall ∨ NoConflictInstall c a)

/-! ## Entries and commits -/

/-- The chronicle of a cluster of `n` servers. -/
abbrev Chron (n : Nat) (α : Type) := Chronicle (Fin n) (LogEntry α)

/-- The first entry of a log, which stands for the snapshot. -/
def sentinel (log : List (LogEntry α)) : LogEntry α := log.headD .zero

/-- The position of an entry. -/
def LogEntry.pos (e : LogEntry α) : Pos := ⟨e.term, e.index⟩

/-- The entries of the leaders' logs carry their index. -/
def Indexed (H : Chron n α) : Prop :=
  ∀ V i e, (H.ledger V)[i]? = some e → e.index = i + 1

/-- The entry `e` was appended by the leader of its term. -/
def Minted (H : Chron n α) (e : LogEntry α) : Prop :=
  0 < e.index ∧ (H.ledger e.term)[e.index - 1]? = some e

/-- Something of a term up to `V` was committed at or past index `i`. -/
def Known (H : Chron n α) (V i : Nat) : Prop :=
  i = 0 ∨ ∃ T k, H.done T k ∧ i ≤ k ∧ T ≤ V

/-- The entry `e` was committed. -/
def Chosen (H : Chron n α) (e : LogEntry α) : Prop :=
  ∃ T k, H.done T k ∧ 0 < e.index ∧ e.index ≤ k ∧ (H.ledger T)[e.index - 1]? = some e

/-! ## A server's `Raft` value -/

/-- A log is its sentinel followed by the abstract log that ends at `tip`. -/
structure LogOK (H : Chron n α) (tip : Pos) (log : List (LogEntry α)) : Prop where
  eq : log = sentinel log :: (H.path tip).drop (sentinel log).index
  command : (sentinel log).command = none
  valid : ValidPos H.ledger (sentinel log).pos
  le : (sentinel log).index ≤ tip.index
  tip_eq : (sentinel log).index = tip.index → tip = (sentinel log).pos

/-- The sentinel lies on the abstract log, or on something committed; in the second case the term
that committed it is one the server has reached, or the sentinel's own. -/
def SentinelOK (m : Mode) (H : Chron n α) (i : Fin n) (s : LogEntry α) : Prop :=
  s.term = termAt (H.path (H.tip i)) s.index ∨
    m.conflictInstall ∧ ∃ T k, H.done T k ∧ s.index ≤ k ∧ s.term = termAt (H.ledger T) s.index ∧
      T ≤ H.hor i ∧ (T ≤ H.cur i ∨ s.term = T)

/-- What the server takes to be committed is in its log, and was committed in a term it reached;
`first` is the index of the sentinel. -/
structure Agreed (H : Chron n α) (i : Fin n) (first commitIndex : Nat) : Prop where
  le : commitIndex ≤ (H.tip i).index
  done : first < commitIndex → ∃ T k, H.done T k ∧ commitIndex ≤ k ∧ T ≤ H.cur i ∧
    (H.path (H.tip i)).take commitIndex = (H.ledger T).take commitIndex

/-- The cells of the backing array past the end of the log are fresh, or hold entries the log held
there before. -/
def SpareOK (H : Chron n α) (log spare : List (LogEntry α)) : Prop :=
  ∀ k e, spare[k]? = some e →
    e = .zero ∨ e.index = (sentinel log).index + log.length + k ∧ Minted H e

/-- A saved log has the entry `(m, T)`, or a snapshot that reaches past it. -/
def HoldsAt (log : List (LogEntry α)) (m T : Nat) : Prop :=
  (∃ e ∈ log, e.index = m ∧ e.term = T) ∨ m ≤ (sentinel log).index

/-- What `Make` restores from a `Persister`. -/
def Persister.restored (ps : Persister n α) : HardState n α :=
  ps.raftstate.getD ⟨0, none, [.zero]⟩

/-- The `Persister` holds the current persistent variables. -/
structure Durable (rf : Raft n α) : Prop where
  restored : rf.persister.restored = rf.encodeState
  saved : ∀ hs, rf.persister.raftstate = some hs → hs ∈ rf.persister.saves

/-- What holds of a leader. -/
structure LeaderOK (H : Chron n α) (i : Fin n) (rf : Raft n α) : Prop where
  leader : H.leader (H.cur i) = some i
  tip : H.tip i = posAt (H.ledger (H.cur i)) (H.ledger (H.cur i)).length
  clean : (sentinel rf.log).term = termAt (H.ledger (H.cur i)) (sentinel rf.log).index
  hor : H.hor i ≤ H.cur i
  ack : H.base (H.cur i) < (H.ledger (H.cur i)).length →
    (H.ledger (H.cur i)).length ≤ H.ack i (H.cur i)
  done : ∀ k, H.done (H.cur i) k → k ≤ rf.commitIndex
  next : ∀ p, H.base (H.cur i) < rf.nextIndex p ∨ H.cur i ≤ H.cur p
  matched : ∀ p, rf.matchIndex p ≤ rf.commitIndex ∨ rf.matchIndex p ≤ H.base (H.cur i) ∨
    rf.matchIndex p ≤ H.ack p (H.cur i)

/-- What holds of the `Raft` value of server `i`. -/
structure RaftOK (m : Mode) (H : Chron n α) (i : Fin n) (rf : Raft n α) : Prop where
  cur : rf.currentTerm = H.cur i
  vote : rf.voteFor = H.vote i (H.cur i)
  log : LogOK H (H.tip i) rf.log
  sentinel_ok : SentinelOK m H i (sentinel rf.log)
  spare : SpareOK H rf.log rf.spare
  durable : Durable rf
  first_le : (sentinel rf.log).index ≤ rf.lastApplied
  applied_le : rf.lastApplied ≤ rf.commitIndex
  known : Known H (H.hor i) rf.commitIndex
  agreed : m.staleSend ∨ Agreed H i (sentinel rf.log).index rf.commitIndex
  candidate : rf.state = .candidate →
    H.req i (H.cur i) = some (H.tip i, H.hor i) ∧ H.leader (H.cur i) ≠ some i
  leader : rf.state = .leader → LeaderOK H i rf
  acked : ∀ T m, H.base T < m → m ≤ H.ack i T →
    ∃ hs ∈ rf.persister.saves, hs.currentTerm = T ∧ HoldsAt hs.log m T

/-! ## Calls -/

/-- A vote request carries what its candidate asked with. -/
structure VoteCallOK (H : Chron n α) (call : VoteCall n) : Prop where
  candidateId : call.args.candidateId = call.caller
  req : ∃ h, H.req call.caller call.args.term =
    some (⟨call.args.lastLogTerm, call.args.lastLogIndex⟩, h)
  granted : ∀ r, call.reply = some r → r.voteGranted = true →
    H.vote call.callee call.args.term = some call.caller

/-- `args` of an `AppendEntries` request is a slice of the first `j` entries of the log of the
leader of term `V`, sent by the server `l`, which also led the request's term. -/
structure AppendArgsOK (m : Mode) (H : Chron n α) (l : Fin n) (args : AppendEntriesArgs n α)
    (V j : Nat) : Prop where
  term_le : args.term ≤ V
  fresh : m.staleSend ∨ V = args.term
  leader : H.leader args.term = some l
  sender : H.leader V = some l
  cur : V ≤ H.cur l
  base_le : H.base V ≤ j
  le : j ≤ (H.ledger V).length
  prev_le : args.prevLogIndex ≤ j
  prevTerm : args.prevLogTerm = termAt (H.ledger V) args.prevLogIndex
  entries : args.entries = ((H.ledger V).take j).drop args.prevLogIndex
  commit_le : args.leaderCommit ≤ j
  known : Known H V args.leaderCommit

/-- A successful reply to a request that was sent in the term its log was read in acknowledges that
log, unless it was committed already. -/
def AppendReplyOK (H : Chron n α) (callee : Fin n) (args : AppendEntriesArgs n α) (V j : Nat)
    (r : AppendEntriesReply) : Prop :=
  r.term ≤ H.cur callee ∧
    (r.success = true → V = args.term → H.base V < j →
      j ≤ H.ack callee V ∨ ∃ k, H.done V k ∧ j ≤ k)

/-- An `AppendEntries` call that is right for some slice of a leader's log. -/
def AppendCallOK (m : Mode) (H : Chron n α) (call : AppendCall n α) : Prop :=
  ∃ V j, AppendArgsOK m H call.caller call.args V j ∧
    ∀ r, call.reply = some r → AppendReplyOK H call.callee call.args V j r

/-- `args` of an `InstallSnapshot` request names an index of the log of the leader of term `V` up
to which things are committed. A server that `V`'s leader has not heard of in its term only gets
snapshots of entries of term `V`. -/
structure SnapArgsOK (H : Chron n α) (l callee : Fin n) (args : InstallSnapshotArgs n) (V : Nat) :
    Prop where
  term_le : args.term ≤ V
  leader : H.leader args.term = some l
  sender : H.leader V = some l
  cur : V ≤ H.cur l
  le : args.lastIncludedIndex ≤ (H.ledger V).length
  lastTerm : args.lastIncludedTerm = termAt (H.ledger V) args.lastIncludedIndex
  known : Known H V args.lastIncludedIndex
  fresh : H.base V < args.lastIncludedIndex ∨ V ≤ H.cur callee

/-- An `InstallSnapshot` call that is right, and whose reply is. -/
def SnapCallOK (H : Chron n α) (call : SnapCall n) : Prop :=
  (∃ V, SnapArgsOK H call.caller call.callee call.args V) ∧
    ∀ r, call.reply = some r → r.term ≤ H.cur call.callee

/-! ## Goroutines, events and clusters -/

/-- An entry that `apply` sends: one that was appended by a leader, or a zero cell of a backing
array. -/
structure SentOK (m : Mode) (H : Chron n α) (e : LogEntry α) : Prop where
  minted : e = .zero ∨ Minted H e
  chosen : m.staleSend ∨ Chosen H e

/-- What holds of the goroutines of server `i`. -/
structure GoroutinesOK (m : Mode) (H : Chron n α) (i : Fin n) (s : Server n α) : Prop where
  replicators : ∀ r ∈ s.replicators, H.leader r.currentTerm = some i
  applying : ∀ e ∈ s.applying, SentOK m H e ∧ e.index ≤ s.raft.lastApplied
  installing : ∀ x ∈ s.installing, SnapCallOK H x.call ∧ x.msg.index ≤ s.raft.lastApplied ∧
    ∃ b t k, x.msg = .snapshot b t k
  delivered : ∀ m ∈ s.delivered, m.index ≤ s.raft.lastApplied

/-- `log` is a compacted form of the first `j` entries of the log of the leader of term `V`. -/
structure LeaderLog (H : Chron n α) (V j : Nat) (log : List (LogEntry α)) : Prop where
  eq : log = sentinel log :: ((H.ledger V).take j).drop (sentinel log).index
  first_le : (sentinel log).index ≤ j
  le : j ≤ (H.ledger V).length
  clean : (sentinel log).term = termAt (H.ledger V) (sentinel log).index

/-- What the chronicle says about a recorded event. -/
def EventOK (m : Mode) (H : Chron n α) : Event n α → Prop
  | .becomeLeader i V log => H.leader V = some i ∧ LeaderLog H V (H.base V) log
  | .start i command index term =>
    H.leader term = some i ∧ Minted H ⟨command, term, index⟩
  | .commit i V k log =>
    H.leader V = some i ∧ H.done V k ∧ ∃ j, k ≤ j ∧ LeaderLog H V j log
  | .apply _ (.command command index term) => SentOK m H ⟨command, term, index⟩
  | _ => True

/-- The election that a vote request belongs to, and the server it asks. -/
def voteKey (call : VoteCall n) : Fin n × Nat × Nat × Fin n :=
  (call.caller, call.epoch, call.args.term, call.callee)

/-- The voters that candidate `i` has counted are distinct: none of them still owes a reply. -/
def CountOK (H : Chron n α) (c : Cluster n α) (i : Fin n) : Prop :=
  (c.servers i).raft.state = .candidate →
    ∃ S : Finset (Fin n), S.card = (c.servers i).receivedVotes ∧
      ∀ p ∈ S, H.vote p (H.cur i) = some i ∧
        (i, (c.servers i).epoch, H.cur i, p) ∉ c.votes.map voteKey

/-- The snapshot that is saved with a log was handed over with the index of the log's sentinel. -/
def SnapshotOK (trace : List (Event n α)) (i : Fin n) (rf : Raft n α) : Prop :=
  if (sentinel rf.log).index = 0 then rf.persister.snapshot = []
  else .snapshot i (sentinel rf.log).index rf.persister.snapshot ∈ trace ∨
    .installSnapshot i (sentinel rf.log).index rf.persister.snapshot ∈ trace

/-- The cluster `c` is in a state of the abstract protocol with history `H`. -/
structure Sim (m : Mode) (H : Chron n α) (c : Cluster n α) : Prop where
  ok : H.OK
  indexed : Indexed H
  raft : ∀ i, RaftOK m H i (c.servers i).raft
  goroutines : ∀ i, GoroutinesOK m H i (c.servers i)
  votes : ∀ call ∈ c.votes, VoteCallOK H call
  distinct : (c.votes.map voteKey).Nodup
  count : ∀ i, CountOK H c i
  appends : ∀ call ∈ c.appends, AppendCallOK m H call
  snaps : ∀ call ∈ c.snaps, SnapCallOK H call
  trace : ∀ ev ∈ c.trace, EventOK m H ev
  snapshots : ∀ i, SnapshotOK c.trace i (c.servers i).raft

end DistLabs
