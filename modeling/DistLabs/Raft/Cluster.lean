import DistLabs.Lib.Transition
import DistLabs.Raft.Handlers
import Mathlib.Logic.Function.Basic

/-!
# A cluster of `raft.go` servers

A `Server` is a `Raft` value with the goroutines that work on it: the replication goroutines that
are about to enter their loop, each with the term it captured, the entries `apply` still has to
send, and the `InstallSnapshot` handlers that wait to send on `applyChan`. A `Cluster` is the
servers and the remote calls in flight. Every critical section of `rf.mu` is one `Action`, and so
is every send on `applyChan`, every loss of a request or a reply, and every crash; `step` runs one.
Which action is taken next is arbitrary, so the runs of `step` cover every scheduling of the
goroutines and every order, delay and loss of messages.

* A remote call is executed at most once: `reply` is filled in by the handler and consumed by the
  caller. A lost request, a lost reply and a caller that gave up are all `lose`.
* A call remembers the incarnation (`epoch`) of its caller: after a restart the goroutines of the
  old instance are gone, while its requests may still arrive.
* `receivedVotes` is the variable that the goroutines of one `startElection` share. Only the
  goroutines of the latest election get past `rf.currentTerm == args.Term`, so one counter is
  enough.
* Any follower or candidate may start an election and any leader may send heartbeats: the tickers
  only restrict when.
* The service calls `Snapshot` only with an index that was delivered to it.

`trace` is a history variable: what the servers did that the properties speak about.
-/

namespace DistLabs

open Lib

/-- A remote call in flight: the request until `reply` is filled in, the reply after. -/
structure Call (n : Nat) (A R : Type) where
  caller : Fin n
  epoch : Nat
  callee : Fin n
  args : A
  reply : Option R

/-- A call of `RequestVote`. -/
abbrev VoteCall (n : Nat) := Call n (RequestVoteArgs n) RequestVoteReply
/-- A call of `AppendEntries`. -/
abbrev AppendCall (n : Nat) (α : Type) := Call n (AppendEntriesArgs n α) AppendEntriesReply
/-- A call of `InstallSnapshot`. -/
abbrev SnapCall (n : Nat) := Call n (InstallSnapshotArgs n) InstallSnapshotReply

/-- A goroutine of `runHeartBeats` at the head of its loop. -/
structure Replicator (n : Nat) where
  server : Fin n
  currentTerm : Nat
  deriving DecidableEq

/-- An `InstallSnapshot` handler that waits to send its message; `call` holds its reply. -/
structure Installer (n : Nat) (α : Type) where
  call : SnapCall n
  msg : ApplyMsg α

/-- A running instance of a server: the `Raft` value, its goroutines and what the service got from
it. `startIndex` is `log[0].Index` at `Make`. -/
structure Server (n : Nat) (α : Type) where
  raft : Raft n α
  epoch : Nat
  receivedVotes : Nat
  replicators : List (Replicator n)
  applying : List (LogEntry α)
  installing : List (Installer n α)
  startIndex : Nat
  delivered : List (ApplyMsg α)

/-- What the properties of runs speak about. -/
inductive Event (n : Nat) (α : Type) where
  /-- `becomeLeader` was executed, with this term and log. -/
  | becomeLeader (server : Fin n) (term : Nat) (log : List (LogEntry α))
  /-- `Start` returned `(index, term, true)`. -/
  | start (server : Fin n) (command : Option α) (index term : Nat)
  /-- `handleAppendEntriesRPCResponse` assigned `index` to `commitIndex`. -/
  | commit (server : Fin n) (term index : Nat) (log : List (LogEntry α))
  /-- `Snapshot` was called. -/
  | snapshot (server : Fin n) (index : Nat) (snapshot : Bytes)
  /-- `InstallSnapshot` was called. -/
  | installSnapshot (server : Fin n) (index : Nat) (snapshot : Bytes)
  /-- The service received a message from `applyChan`. -/
  | apply (server : Fin n) (msg : ApplyMsg α)
  deriving DecidableEq

/-- The servers, the calls between them that are not over, and what has happened so far. -/
structure Cluster (n : Nat) (α : Type) where
  servers : Fin n → Server n α
  votes : List (VoteCall n)
  appends : List (AppendCall n α)
  snaps : List (SnapCall n)
  trace : List (Event n α)

/-- The atomic steps of a cluster. A number `k` selects a call in flight or a waiting goroutine;
`grow` is the spare capacity Go's runtime gives a freshly allocated log. -/
inductive Action (n : Nat) (α : Type) where
  | electionTimeout (i : Fin n)
  | heartBeat (i : Fin n)
  | start (i : Fin n) (command : Option α) (grow : Nat)
  | snapshot (i : Fin n) (index : Nat) (snapshot : Bytes) (grow : Nat)
  | replicate (i : Fin n) (k : Nat)
  | requestVote (k : Nat)
  | requestVoteReply (k : Nat)
  | appendEntries (k : Nat) (grow : Nat)
  | appendEntriesReply (k : Nat)
  | installSnapshot (k : Nat) (grow : Nat)
  | installSnapshotReply (k : Nat)
  | loseVote (k : Nat)
  | loseAppend (k : Nat)
  | loseSnap (k : Nat)
  | takeBatch (i : Fin n)
  | sendCommand (i : Fin n)
  | sendSnapshot (i : Fin n) (k : Nat)
  | kill (i : Fin n)
  | restart (i : Fin n) (grow : Nat)

variable {n : Nat} {α : Type}

namespace Server

/-- The instance that `Make` starts. -/
def make (persister : Persister n α) (epoch grow : Nat) : Option (Server n α) := do
  let raft ← Raft.make persister grow
  let startIndex ← raft.getFirstIndex
  return { raft, epoch, receivedVotes := 0, replicators := [], applying := [], installing := [],
           startIndex, delivered := [] }

/-- `runHeartBeats`: a goroutine for every other peer, with the current term. -/
def runHeartBeats (s : Server n α) (me : Fin n) : Server n α :=
  if s.raft.state = .leader then
    { s with replicators := s.replicators ++
        ((List.finRange n).filter (· ≠ me)).map fun j => ⟨j, s.raft.currentTerm⟩ }
  else s

/-- The critical section in the goroutine of `startElection` that got a reply; the flag says that
`becomeLeader` was executed. -/
def handleVoteReply (s : Server n α) (args : RequestVoteArgs n) (reply : RequestVoteReply) :
    Option (Server n α × Bool) := do
  if s.raft.state = .candidate ∧ s.raft.currentTerm = args.term then
    if reply.voteGranted then
      let receivedVotes := s.receivedVotes + 1
      if receivedVotes * 2 ≥ n + 1 then
        let raft ← s.raft.becomeLeader
        return ({ s with raft, receivedVotes }, true)
      else return ({ s with receivedVotes }, false)
    else if reply.term > s.raft.currentTerm then
      return ({ s with raft := s.raft.becomeFollower reply.term }, false)
    else return (s, false)
  else return (s, false)

end Server

namespace Cluster

/-- The cluster before anything happened: every server was made from an empty `Persister`. -/
def init : Cluster n α where
  servers := fun _ =>
    { raft :=
        { persister := .empty, currentTerm := 0, voteFor := none, log := [.zero], spare := []
          state := .follower, commitIndex := 0, lastApplied := 0
          nextIndex := fun _ => 1, matchIndex := fun _ => 0 }
      epoch := 0, receivedVotes := 0, replicators := [], applying := [], installing := []
      startIndex := 0, delivered := [] }
  votes := []
  appends := []
  snaps := []
  trace := []

/-- Replace server `i`. -/
def set (c : Cluster n α) (i : Fin n) (s : Server n α) : Cluster n α :=
  { c with servers := Function.update c.servers i s }

/-- Extend the history. -/
def log (c : Cluster n α) (events : List (Event n α)) : Cluster n α :=
  { c with trace := c.trace ++ events }

/-- One step of the cluster; `none` when the action is not enabled, or panics. -/
def step (c : Cluster n α) : Action n α → Option (Cluster n α)
  | .electionTimeout i => do
    let s := c.servers i
    if s.raft.state = .follower ∨ s.raft.state = .candidate then
      let (raft, args) ← s.raft.startElection i
      return { c.set i { s with raft, receivedVotes := 1 } with
        votes := c.votes ++
          ((List.finRange n).filter (· ≠ i)).map fun j => ⟨i, s.epoch, j, args, none⟩ }
    else none
  | .heartBeat i => some (c.set i ((c.servers i).runHeartBeats i))
  | .start i command grow => do
    let s := c.servers i
    let (raft, result) ← s.raft.start command grow
    match result with
    | none => return c
    | some (index, term) =>
      return (c.set i (({ s with raft } : Server n α).runHeartBeats i)).log
        [.start i command index term]
  | .snapshot i index snapshot grow => do
    let s := c.servers i
    if ∃ m ∈ s.delivered, m.index = index then
      let raft ← s.raft.snapshot index snapshot grow
      return (c.set i { s with raft }).log [.snapshot i index snapshot]
    else none
  | .replicate i k => do
    let s := c.servers i
    let r ← s.replicators[k]?
    let request ← s.raft.buildRequest i r.server r.currentTerm
    let c := c.set i { s with replicators := s.replicators.eraseIdx k }
    match request with
    | none => return c
    | some (.append args) =>
      return { c with appends := c.appends ++ [⟨i, s.epoch, r.server, args, none⟩] }
    | some (.snapshot args) =>
      return { c with snaps := c.snaps ++ [⟨i, s.epoch, r.server, args, none⟩] }
  | .requestVote k => do
    let call ← c.votes[k]?
    if call.reply.isSome then none
    let s := c.servers call.callee
    let (raft, reply) ← s.raft.requestVote call.args
    return { c.set call.callee { s with raft } with
      votes := c.votes.set k { call with reply := some reply } }
  | .requestVoteReply k => do
    let call ← c.votes[k]?
    let reply ← call.reply
    let s := c.servers call.caller
    if call.epoch ≠ s.epoch then none
    let (s', elected) ← s.handleVoteReply call.args reply
    let c := { c.set call.caller s' with votes := c.votes.eraseIdx k }
    return if elected then c.log [.becomeLeader call.caller s'.raft.currentTerm s'.raft.log] else c
  | .appendEntries k grow => do
    let call ← c.appends[k]?
    if call.reply.isSome then none
    let s := c.servers call.callee
    let (raft, reply) ← s.raft.appendEntries call.args grow
    return { c.set call.callee { s with raft } with
      appends := c.appends.set k { call with reply := some reply } }
  | .appendEntriesReply k => do
    let call ← c.appends[k]?
    let reply ← call.reply
    let s := c.servers call.caller
    if call.epoch ≠ s.epoch then none
    let (raft, again, assigned) ←
      s.raft.handleAppendEntriesRPCResponse call.caller call.callee call.args reply
    -- the goroutine goes back to the head of its loop, with the term it started with
    let replicators := if again then s.replicators ++ [⟨call.callee, call.args.term⟩]
      else s.replicators
    return ({ c.set call.caller { s with raft, replicators } with
      appends := c.appends.eraseIdx k } : Cluster n α).log
        (assigned.map fun i => .commit call.caller raft.currentTerm i raft.log)
  | .installSnapshot k grow => do
    let call ← c.snaps[k]?
    if call.reply.isSome then none
    let s := c.servers call.callee
    let (raft, reply, msg) ← s.raft.installSnapshot call.args grow
    let call' := { call with reply := some reply }
    let event := .installSnapshot call.callee call.args.lastIncludedIndex call.args.snapshot
    match msg with
    | none =>
      return ({ c.set call.callee { s with raft } with
        snaps := c.snaps.set k call' } : Cluster n α).log [event]
    | some msg =>
      return ({ c.set call.callee
        { s with raft, installing := s.installing ++ [⟨call', msg⟩] } with
        snaps := c.snaps.eraseIdx k } : Cluster n α).log [event]
  | .installSnapshotReply k => do
    let call ← c.snaps[k]?
    let reply ← call.reply
    let s := c.servers call.caller
    if call.epoch ≠ s.epoch then none
    let raft := s.raft.handleInstallSnapshotRPCResponse call.callee call.args reply
    return { c.set call.caller { s with raft } with snaps := c.snaps.eraseIdx k }
  | .loseVote k => some { c with votes := c.votes.eraseIdx k }
  | .loseAppend k => some { c with appends := c.appends.eraseIdx k }
  | .loseSnap k => some { c with snaps := c.snaps.eraseIdx k }
  | .takeBatch i => do
    let s := c.servers i
    if s.applying ≠ [] then none
    let (raft, applying) ← s.raft.takeBatch
    return c.set i { s with raft, applying }
  | .sendCommand i => do
    let s := c.servers i
    match s.applying with
    | [] => none
    | e :: es =>
      let msg := .command e.command e.index e.term
      return (c.set i { s with applying := es, delivered := s.delivered ++ [msg] }).log
        [.apply i msg]
  | .sendSnapshot i k => do
    let s := c.servers i
    let inst ← s.installing[k]?
    let c' := c.set i { s with
      installing := s.installing.eraseIdx k, delivered := s.delivered ++ [inst.msg] }
    return ({ c' with snaps := c.snaps ++ [inst.call] } : Cluster n α).log [.apply i inst.msg]
  | .kill i =>
    let s := c.servers i
    some (c.set i { s with raft := s.raft.kill })
  | .restart i grow => do
    let s := c.servers i
    let s' ← Server.make s.raft.persister (s.epoch + 1) grow
    return c.set i s'

end Cluster

/-- The clusters that runs whose steps all meet the guard `ok` reach. -/
abbrev Reachable (ok : Cluster n α → Action n α → Prop) : Cluster n α → Prop :=
  Reach Cluster.step ok Cluster.init

end DistLabs
