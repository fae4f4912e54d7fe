import DistLabs.Raft.Types

/-!
# The functions of `raft.go`

One definition for each function, over an explicit `Raft` value. A critical section of `rf.mu` is
one application of such a function. `none` is a run-time panic: a subscript or slice bound out of
range, or `make` with a negative length. What only concerns real time (`electionStartTime`, the
tickers) or debugging output (`rflog`) is left out.
-/

namespace DistLabs

variable {n : Nat} {α : Type}

namespace Raft

/-! ## Reading the log -/

/-- `getLastIndex`. -/
def getLastIndex (rf : Raft n α) : Option Nat := rf.log.getLast?.map (·.index)

/-- `getLastTerm`. -/
def getLastTerm (rf : Raft n α) : Option Nat := rf.log.getLast?.map (·.term)

/-- `getFirstIndex`. -/
def getFirstIndex (rf : Raft n α) : Option Nat := rf.log.head?.map (·.index)

/-- `getFirstTerm`. -/
def getFirstTerm (rf : Raft n α) : Option Nat := rf.log.head?.map (·.term)

/-- `getTerm`: the subscript is the real index minus the first one, and a negative one panics. -/
def getTerm (rf : Raft n α) (index : Nat) : Option Nat := do
  let first ← rf.getFirstIndex
  if index < first then none else (rf.log[index - first]?).map (·.term)

/-- `getNextIndex`. -/
def getNextIndex (rf : Raft n α) : Option Nat := rf.getLastIndex.map (· + 1)

/-! ## Saving and restoring -/

/-- `encodeState`. -/
def encodeState (rf : Raft n α) : HardState n α := ⟨rf.currentTerm, rf.voteFor, rf.log⟩

/-- `persist`: save the state with the snapshot that is already there. -/
def persist (rf : Raft n α) : Raft n α :=
  { rf with persister := rf.persister.save rf.encodeState rf.persister.snapshot }

/-- `append(log[:k], entries...)` on a slice with spare capacity: in place when the result fits the
backing array, else into a fresh array with `grow` zero cells after the result. -/
def appendAt (rf : Raft n α) (k : Nat) (entries : List (LogEntry α)) (grow : Nat) : Raft n α :=
  { rf with
    log := rf.log.take k ++ entries
    spare := if k + entries.length ≤ rf.log.length + rf.spare.length then
        (rf.log ++ rf.spare).drop (k + entries.length)
      else List.replicate grow LogEntry.zero }

/-- `Make`: the fields before `readPersist`, then what `readPersist` restores, then the fields that
depend on the restored log. -/
def make (persister : Persister n α) (grow : Nat) : Option (Raft n α) := do
  let rf : Raft n α :=
    { persister, currentTerm := 0, voteFor := none, log := [LogEntry.zero], spare := [],
      state := .follower, commitIndex := 0, lastApplied := 0,
      nextIndex := fun _ => 0, matchIndex := fun _ => 0 }
  let rf := match persister.raftstate with
    | none => rf
    | some hs =>
      { rf with
        currentTerm := hs.currentTerm, voteFor := hs.voteFor, log := hs.log
        spare := List.replicate grow LogEntry.zero }
  let first ← rf.getFirstIndex
  let next ← rf.getNextIndex
  return { rf with
    commitIndex := first, lastApplied := first
    nextIndex := fun _ => next, matchIndex := fun _ => 0 }

/-- `Snapshot`. -/
def snapshot (rf : Raft n α) (index : Nat) (snapshot : Bytes) (grow : Nat) :
    Option (Raft n α) := do
  let lastIndex ← rf.getFirstIndex
  if lastIndex ≥ index then return rf
  else if index - lastIndex > rf.log.length then none
  else
    match rf.log.drop (index - lastIndex) with
    | [] => none
    | e :: entries =>
      let log := { e with command := none } :: entries
      return { rf with
        log, spare := List.replicate grow LogEntry.zero
        persister := rf.persister.save ⟨rf.currentTerm, rf.voteFor, log⟩ snapshot }

/-! ## Changing role -/

/-- `becomeFollower`. -/
def becomeFollower (rf : Raft n α) (term : Nat) : Raft n α :=
  ({ rf with state := .follower, currentTerm := term, voteFor := none } : Raft n α).persist

/-- The term check with which `RequestVote`, `AppendEntries` and `InstallSnapshot` begin. -/
def stepDown (rf : Raft n α) (term : Nat) : Raft n α :=
  if term > rf.currentTerm then rf.becomeFollower term else rf

/-- A request of the current term makes its receiver a follower. -/
def toFollower (rf : Raft n α) : Raft n α := { rf with state := .follower }

/-- `becomeLeader`. -/
def becomeLeader (rf : Raft n α) : Option (Raft n α) := do
  let next ← rf.getNextIndex
  return { rf with
    state := .leader, nextIndex := fun _ => next, matchIndex := fun _ => 0 }

/-- The first half of `startElection`, up to the arguments of the vote requests. -/
def startElection (rf : Raft n α) (me : Fin n) : Option (Raft n α × RequestVoteArgs n) := do
  let rf := ({ rf with
    currentTerm := rf.currentTerm + 1, state := .candidate, voteFor := some me } :
      Raft n α).persist
  let lastLogIndex ← rf.getLastIndex
  let lastLogTerm ← rf.getLastTerm
  return (rf, { term := rf.currentTerm, candidateId := me, lastLogIndex, lastLogTerm })

/-- `Kill`. -/
def kill (rf : Raft n α) : Raft n α := { rf with state := .dead }

/-! ## `RequestVote` -/

/-- Vote for `candidate`, unless the vote is already cast. -/
def castVote (rf : Raft n α) (candidate : Fin n) : Raft n α :=
  if rf.voteFor = none then ({ rf with voteFor := some candidate } : Raft n α).persist else rf

/-- `RequestVote` after the term check. -/
def decideVote (rf : Raft n α) (args : RequestVoteArgs n) :
    Option (Raft n α × RequestVoteReply) := do
  let lastLogIndex ← rf.getLastIndex
  let lastLogTerm ← rf.getLastTerm
  if rf.currentTerm = args.term ∧ (rf.voteFor = none ∨ rf.voteFor = some args.candidateId) ∧
      (args.lastLogTerm > lastLogTerm ∨
        (args.lastLogTerm = lastLogTerm ∧ args.lastLogIndex ≥ lastLogIndex)) then
    return (rf.castVote args.candidateId, { term := rf.currentTerm, voteGranted := true })
  else
    return (rf, { term := rf.currentTerm, voteGranted := false })

/-- `RequestVote`. -/
def requestVote (rf : Raft n α) (args : RequestVoteArgs n) :
    Option (Raft n α × RequestVoteReply) :=
  if rf.state = .dead then some (rf, {}) else (rf.stepDown args.term).decideVote args

/-! ## `AppendEntries` -/

/-- The loop of `AppendEntries` that skips the entries both logs hold: where it stops, and the
entries that are left. -/
def skipMatched (rf : Raft n α) :
    List (LogEntry α) → (insertIndex : Nat) → Option (Nat × List (LogEntry α))
  | [], insertIndex => some (insertIndex, [])
  | e :: es, insertIndex => do
    let next ← rf.getNextIndex
    if insertIndex ≥ next then return (insertIndex, e :: es)
    let term ← rf.getTerm insertIndex
    if term ≠ e.term then return (insertIndex, e :: es)
    skipMatched rf es (insertIndex + 1)

/-- The loop of `AppendEntries` that looks for the first index of the conflicting term, started at
`index = k - 1`; the answer is the source's `index + 1`. -/
def conflictStart (rf : Raft n α) (conflictTerm : Nat) : (k : Nat) → Option Nat
  | 0 => some 0
  | index + 1 => do
    let first ← rf.getFirstIndex
    if index < first then return index + 1
    let term ← rf.getTerm index
    if term ≠ conflictTerm then return index + 1
    conflictStart rf conflictTerm index

/-- Overwrite the log from `insertIndex` on with what is left of the entries, if anything is. -/
def overwrite (rf : Raft n α) (first insertIndex : Nat) (rest : List (LogEntry α)) (grow : Nat) :
    Raft n α :=
  if rest = [] then rf else rf.appendAt (insertIndex - first) rest grow

/-- Follow the leader's `commitIndex` as far as the own log reaches. -/
def followCommit (rf : Raft n α) (last leaderCommit : Nat) : Raft n α :=
  if leaderCommit > rf.commitIndex then { rf with commitIndex := min last leaderCommit } else rf

/-- The branch of `AppendEntries` in which the previous entry matches. -/
def storeEntries (rf : Raft n α) (args : AppendEntriesArgs n α) (first grow : Nat) :
    Option (Raft n α × AppendEntriesReply) := do
  let (insertIndex, rest) ← rf.skipMatched args.entries (args.prevLogIndex + 1)
  let next ← (rf.overwrite first insertIndex rest grow).getNextIndex
  let stored :=
    (rf.overwrite first insertIndex rest grow).followCommit (next - 1) args.leaderCommit
  return (if rest = [] then stored else stored.persist,
    { term := rf.currentTerm, success := true })

/-- `AppendEntries` on a request of the current term. -/
def receiveEntries (rf : Raft n α) (args : AppendEntriesArgs n α) (grow : Nat) :
    Option (Raft n α × AppendEntriesReply) := do
  let first ← rf.getFirstIndex
  -- the early return leaves `reply.Term` at 0
  if args.prevLogIndex < first then return (rf, {})
  let next ← rf.getNextIndex
  if args.prevLogIndex ≥ next then
    return (rf, { term := rf.currentTerm, conflictIndex := next, conflictTerm := -1 })
  let prevTerm ← rf.getTerm args.prevLogIndex
  if args.prevLogTerm = prevTerm then rf.storeEntries args first grow
  else
    let conflictIndex ← rf.conflictStart prevTerm args.prevLogIndex
    return (rf, { term := rf.currentTerm, conflictIndex, conflictTerm := prevTerm })

/-- `AppendEntries`. -/
def appendEntries (rf : Raft n α) (args : AppendEntriesArgs n α) (grow : Nat) :
    Option (Raft n α × AppendEntriesReply) :=
  if rf.state = .dead then some (rf, {})
  else if args.term ≠ (rf.stepDown args.term).currentTerm then
    some (rf.stepDown args.term, { term := (rf.stepDown args.term).currentTerm })
  else (rf.stepDown args.term).toFollower.receiveEntries args grow

/-! ## `InstallSnapshot` -/

/-- Replace the log by `entries` after the last entry of the snapshot, and save both. -/
def replaceLog (rf : Raft n α) (args : InstallSnapshotArgs n) (entries spare : List (LogEntry α)) :
    Raft n α :=
  let log := ⟨none, args.lastIncludedTerm, args.lastIncludedIndex⟩ :: entries
  { rf with
    log, spare
    persister := rf.persister.save ⟨rf.currentTerm, rf.voteFor, log⟩ args.snapshot
    lastApplied := args.lastIncludedIndex, commitIndex := args.lastIncludedIndex }

/-- `InstallSnapshot` on a request of the current term, up to the send on `applyChan`, which
happens after `rf.mu` is released: the message to send, when there is one. -/
def receiveSnapshot (rf : Raft n α) (args : InstallSnapshotArgs n) (grow : Nat) :
    Option (Raft n α × Option (ApplyMsg α)) := do
  if rf.commitIndex ≥ args.lastIncludedIndex then return (rf, none)
  let last ← rf.getLastIndex
  let first ← rf.getFirstIndex
  let msg := .snapshot args.snapshot args.lastIncludedTerm args.lastIncludedIndex
  if last ≤ args.lastIncludedIndex then return (rf.replaceLog args [] [], some msg)
  else if args.lastIncludedIndex < first then none
  else
    match rf.log.drop (args.lastIncludedIndex - first) with
    | [] => none
    | _ :: entries =>
      return (rf.replaceLog args entries (List.replicate grow LogEntry.zero), some msg)

/-- `InstallSnapshot`. -/
def installSnapshot (rf : Raft n α) (args : InstallSnapshotArgs n) (grow : Nat) :
    Option (Raft n α × InstallSnapshotReply × Option (ApplyMsg α)) :=
  if rf.state = .dead then some (rf, {}, none)
  else if args.term ≠ (rf.stepDown args.term).currentTerm then
    some (rf.stepDown args.term, { term := (rf.stepDown args.term).currentTerm }, none)
  else do
    let (rf', msg) ← (rf.stepDown args.term).toFollower.receiveSnapshot args grow
    return (rf', { term := (rf.stepDown args.term).currentTerm }, msg)

/-! ## The leader -/

/-- `Start` up to `runHeartBeats`: the new state, and the index and term of the new entry; a server
that is not the leader answers `none` inside. -/
def start (rf : Raft n α) (command : Option α) (grow : Nat) :
    Option (Raft n α × Option (Nat × Nat)) := do
  if rf.state ≠ .leader then return (rf, none)
  let next ← rf.getNextIndex
  let rf := (rf.appendAt rf.log.length [⟨command, rf.currentTerm, next⟩] grow).persist
  let last ← rf.getLastIndex
  return (rf, some (last, rf.currentTerm))

/-- What the body of a replication goroutine sends. -/
inductive Request (n : Nat) (α : Type) where
  | append (args : AppendEntriesArgs n α)
  | snapshot (args : InstallSnapshotArgs n)

/-- The first critical section of the loop in the goroutine that `runHeartBeats` starts for
`server`: the request it builds with the term `currentTerm` it was started with, or `none` inside
when the server is no longer leader. -/
def buildRequest (rf : Raft n α) (me server : Fin n) (currentTerm : Nat) :
    Option (Option (Request n α)) := do
  if rf.state ≠ .leader then return none
  let firstIndex ← rf.getFirstIndex
  if rf.nextIndex server ≤ firstIndex then
    let firstTerm ← rf.getFirstTerm
    return some (.snapshot
      { term := currentTerm, leaderId := me, lastIncludedIndex := firstIndex
        lastIncludedTerm := firstTerm, snapshot := rf.persister.snapshot })
  else
    let prevLogIndex := rf.nextIndex server - 1
    let nowLogIndex := rf.nextIndex server
    let next ← rf.getNextIndex
    if next < nowLogIndex ∨ rf.log.length < nowLogIndex - firstIndex then none
    let prevLogTerm ← rf.getTerm prevLogIndex
    return some (.append
      { term := currentTerm, leaderId := me, prevLogIndex, prevLogTerm
        entries := (rf.log.drop (nowLogIndex - firstIndex)).takeD (next - nowLogIndex) .zero
        leaderCommit := rf.commitIndex })

/-- `server` is known to hold the log up to `index`. -/
def matchUpTo (rf : Raft n α) (server : Fin n) (index : Nat) : Raft n α :=
  { rf with
    matchIndex := Function.update rf.matchIndex server (max (rf.matchIndex server) index)
    nextIndex := Function.update rf.nextIndex server (max (rf.matchIndex server) index + 1) }

/-- `handleInstallSnapshotRPCResponse`. -/
def handleInstallSnapshotRPCResponse (rf : Raft n α) (server : Fin n)
    (args : InstallSnapshotArgs n) (reply : InstallSnapshotReply) : Raft n α :=
  if rf.state = .leader ∧ rf.currentTerm = args.term then
    if reply.term = rf.currentTerm then rf.matchUpTo server args.lastIncludedIndex
    else if reply.term > rf.currentTerm then rf.becomeFollower reply.term
    else rf
  else rf

/-- The number of peers, this server included, known to hold index `i`. -/
def countMatch (rf : Raft n α) (me : Fin n) (i : Nat) : Nat :=
  1 + (Finset.univ.filter fun j : Fin n => j ≠ me ∧ rf.matchIndex j ≥ i).card

/-- The counting loop of `handleAppendEntriesRPCResponse` over the indices `is`: the values it
assigns to `commitIndex`, in order. -/
def commitLoop (rf : Raft n α) (me : Fin n) : (is : List Nat) → Option (List Nat)
  | [] => some []
  | i :: is => do
    let term ← rf.getTerm i
    if term = rf.currentTerm then
      if rf.countMatch me i * 2 ≥ n + 1 then
        let is' ← commitLoop rf me is
        return i :: is'
      else return []
    else commitLoop rf me is

/-- The backward scan of `handleAppendEntriesRPCResponse` for an entry of the conflicting term,
started at `i = k - 1`; `-1` when there is none. -/
def conflictEnd (rf : Raft n α) (firstIndex : Nat) (conflictTerm : Int) : (k : Nat) → Option Int
  | 0 => some (-1)
  | i + 1 => do
    if i < firstIndex then return -1
    let term ← rf.getTerm i
    if (term : Int) = conflictTerm then return i
    if (term : Int) < conflictTerm then return -1
    conflictEnd rf firstIndex conflictTerm i

/-- The counting loop over the indices above `commitIndex`: the new state and the values assigned
to `commitIndex`. -/
def advanceCommit (rf : Raft n α) (me : Fin n) : Option (Raft n α × List Nat) := do
  let next ← rf.getNextIndex
  let assigned ← rf.commitLoop me
    (List.range' (rf.commitIndex + 1) (next - (rf.commitIndex + 1)))
  return ({ rf with commitIndex := assigned.getLast?.getD rf.commitIndex }, assigned)

/-- Where to go on after a rejection. -/
def backUp (rf : Raft n α) (server : Fin n) (args : AppendEntriesArgs n α)
    (reply : AppendEntriesReply) : Option (Raft n α) := do
  let firstIndex ← rf.getFirstIndex
  let lastIndex ← (if reply.conflictTerm > 0 then
      rf.conflictEnd firstIndex reply.conflictTerm args.prevLogIndex
    else some (-1))
  let next := if lastIndex > 0 then lastIndex.toNat + 1
    else max reply.conflictIndex (rf.matchIndex server + 1)
  return { rf with nextIndex := Function.update rf.nextIndex server next }

/-- `handleAppendEntriesRPCResponse`: the new state, whether the goroutine sends again, and the
values assigned to `commitIndex`. -/
def handleAppendEntriesRPCResponse (rf : Raft n α) (me server : Fin n)
    (args : AppendEntriesArgs n α) (reply : AppendEntriesReply) :
    Option (Raft n α × Bool × List Nat) :=
  if rf.state = .leader ∧ rf.currentTerm = args.term then
    if reply.term = rf.currentTerm then
      if reply.success then do
        let (rf', assigned) ←
          (rf.matchUpTo server (args.prevLogIndex + args.entries.length)).advanceCommit me
        return (rf', false, assigned)
      else do
        let rf' ← rf.backUp server args reply
        return (rf', true, [])
    else if reply.term > rf.currentTerm then some (rf.becomeFollower reply.term, false, [])
    else some (rf, false, [])
  else some (rf, false, [])

/-! ## Applying -/

/-- The critical section of `apply`: the entries to send, which are read off the backing array.
`apply` waits while there is nothing to apply. -/
def takeBatch (rf : Raft n α) : Option (Raft n α × List (LogEntry α)) := do
  if rf.lastApplied ≥ rf.commitIndex then none
  let firstIndex ← rf.getFirstIndex
  if rf.lastApplied + 1 < firstIndex then none
  if rf.commitIndex + 1 - firstIndex > rf.log.length + rf.spare.length then none
  let logEntries := ((rf.log ++ rf.spare).drop (rf.lastApplied + 1 - firstIndex)).take
    (rf.commitIndex - rf.lastApplied)
  return ({ rf with lastApplied := max rf.lastApplied rf.commitIndex }, logEntries)

end Raft

end DistLabs
