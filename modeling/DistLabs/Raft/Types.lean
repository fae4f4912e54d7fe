import Mathlib.Data.Fintype.Card

/-!
# The data model of `raft.go` and `persister.go`

A cluster has `n` peers, named by `Fin n` as `rf.peers` names them by position. Commands are of an
arbitrary type `α`; a `nil` command is `none`. Terms and indices are natural numbers: no variable
of the source that holds one is ever negative, except `ConflictTerm` (`-1` for "log too short") and
`voteFor` (`-1` for "nobody"), which are an `Int` and an `Option`.

The `[]byte` that `persister.Save` gets from `encodeState` is represented by the value it decodes
to, and the empty `[]byte` by `none`: labgob's decoder inverts its encoder on these values.
`Persister.saves` is a history variable: what was ever saved, newest first; no function reads it.
-/

namespace DistLabs

/-- `RuleState` of the source. -/
inductive RuleState where
  | follower
  | candidate
  | leader
  | dead
  deriving DecidableEq, Repr

/-- An entry of the log. Entry `0` of a log is the snapshot's last entry, without its command. -/
structure LogEntry (α : Type) where
  command : Option α
  term : Nat
  index : Nat
  deriving DecidableEq, Repr

/-- The zero value of `LogEntry`, which `make([]LogEntry, 1)` holds. -/
def LogEntry.zero {α : Type} : LogEntry α := ⟨none, 0, 0⟩

/-- A snapshot as the service hands it over: opaque bytes. -/
abbrev Bytes := List UInt8

/-- What `encodeState` encodes: the persistent variables. -/
structure HardState (n : Nat) (α : Type) where
  currentTerm : Nat
  voteFor : Option (Fin n)
  log : List (LogEntry α)
  deriving DecidableEq, Repr

/-- `Persister`, with the history of what was saved. -/
structure Persister (n : Nat) (α : Type) where
  raftstate : Option (HardState n α)
  snapshot : Bytes
  saves : List (HardState n α)

/-- `MakePersister`. -/
def Persister.empty {n : Nat} {α : Type} : Persister n α := ⟨none, [], []⟩

/-- `Persister.Save`: state and snapshot are replaced together. -/
def Persister.save {n : Nat} {α : Type} (ps : Persister n α) (raftstate : HardState n α)
    (snapshot : Bytes) : Persister n α :=
  ⟨some raftstate, snapshot, raftstate :: ps.saves⟩

/-- The fields of `Raft` that the code reads. `log` is the Go slice; `spare` is the rest of its
backing array, which a slice expression of `apply` may reach when `commitIndex` is past the end of
`log`. -/
structure Raft (n : Nat) (α : Type) where
  persister : Persister n α
  currentTerm : Nat
  voteFor : Option (Fin n)
  log : List (LogEntry α)
  spare : List (LogEntry α)
  state : RuleState
  commitIndex : Nat
  lastApplied : Nat
  nextIndex : Fin n → Nat
  matchIndex : Fin n → Nat

/-! ## RPC arguments and replies -/

/-- The arguments of `RequestVote`. -/
structure RequestVoteArgs (n : Nat) where
  term : Nat
  candidateId : Fin n
  lastLogIndex : Nat
  lastLogTerm : Nat
  deriving DecidableEq, Repr

/-- The reply of `RequestVote`. -/
structure RequestVoteReply where
  term : Nat := 0
  voteGranted : Bool := false
  deriving DecidableEq, Repr

/-- The arguments of `AppendEntries`. -/
structure AppendEntriesArgs (n : Nat) (α : Type) where
  term : Nat
  leaderId : Fin n
  prevLogIndex : Nat
  prevLogTerm : Nat
  entries : List (LogEntry α)
  leaderCommit : Nat
  deriving DecidableEq, Repr

/-- The reply of `AppendEntries`, with what the leader needs to back up quickly. -/
structure AppendEntriesReply where
  term : Nat := 0
  success : Bool := false
  conflictIndex : Nat := 0
  conflictTerm : Int := 0
  deriving DecidableEq, Repr

/-- The arguments of `InstallSnapshot`. -/
structure InstallSnapshotArgs (n : Nat) where
  term : Nat
  leaderId : Fin n
  lastIncludedIndex : Nat
  lastIncludedTerm : Nat
  snapshot : Bytes
  deriving DecidableEq, Repr

/-- The reply of `InstallSnapshot`. -/
structure InstallSnapshotReply where
  term : Nat := 0
  deriving DecidableEq, Repr

/-- `ApplyMsg`: `CommandValid` and `SnapshotValid` are never both set, so the two uses are two
constructors. -/
inductive ApplyMsg (α : Type) where
  | command (command : Option α) (commandIndex commandTerm : Nat)
  | snapshot (snapshot : Bytes) (snapshotTerm snapshotIndex : Nat)
  deriving DecidableEq, Repr

/-- The index an `ApplyMsg` is about. -/
def ApplyMsg.index {α : Type} : ApplyMsg α → Nat
  | .command _ i _ => i
  | .snapshot _ _ i => i

end DistLabs
