import DistLabs.Stack.Replicas
import Mathlib.Data.Nat.Pairing

/-!
# Handlers and clerks on top of `raft.go`

`Stack` is a service as its clerks see it: the clerks and their requests, the handlers on the
servers with the wait channels between them and the appliers, and below that the servers on
`raft.go` (`ReplicaGroup`). `Lib.Service` has the same handlers and clerks over an assumed Raft;
here `rf.Start` and `rf.GetState` are those of the cluster, and a restart is a crash: the handlers
of the server are gone and its slots are empty. A handler of a service holds the lock of the
service in its steps, except in `rf.Start` and `rf.GetState`. The applier holds it until it has
handed over a snapshot; that does not change what handlers see, so their steps are also allowed
before it has.
-/

namespace DistLabs

open Lib

variable {n : Nat} {τ σ κ α ρ : Type}

/-- The code of a service, with its handlers. -/
structure ServiceHost (τ κ α ρ : Type) extends Host τ κ α where
  /-- The reply that a handler gives at once. -/
  known : τ → κ → Option ρ
  /-- The reply to an operation when its handler has got a result. -/
  reply : κ → α → ρ
  clientId : κ → Int
  requestId : κ → Int

/-- A handler on a server. -/
structure StackHandler (n : Nat) (κ α ρ : Type) where
  server : Fin n
  op : κ
  pc : HandlerPc α ρ

/-- The clerks, the handlers with their channels, and the servers. `none` is a handler that has
returned. -/
structure Stack (n : Nat) (τ κ α ρ : Type) where
  group : ReplicaGroup n τ κ
  waitChMaps : Fin n → GoMap Nat Nat
  chans : List (Option α)
  handlers : List (Option (StackHandler n κ α ρ))
  clerks : Int → ServiceClerk κ
  replies : List ((Int × Int) × ρ)
  history : List (HistoryEvent (Int × Int) κ ρ)

/-- The steps. `h` is a handler. -/
inductive StackAction (n : Nat) (κ : Type) where
  /-- A clerk calls an operation. -/
  | call (op : κ)
  /-- A request arrives at a server. -/
  | request (i : Fin n) (op : κ)
  /-- The handler looks whether it can answer at once. -/
  | check (h : Nat)
  /-- The handler calls `rf.Start`. -/
  | start (h grow : Nat)
  /-- The handler looks up the slot of its index, or makes it. -/
  | slot (h : Nat)
  /-- The handler takes a result from its channel. -/
  | receive (h : Nat)
  /-- The handler has waited for too long. -/
  | timeout (h : Nat)
  /-- The handler asks `rf.GetState` whether it may use the result. -/
  | confirm (h : Nat)
  /-- The handler deletes the slot of its index and returns. -/
  | finish (h : Nat)
  /-- A reply gets to its clerk, and the call returns. -/
  | ret (j : Nat)
  /-- The applier deals with a message, and wakes up the handler that waits for the result. -/
  | apply (i : Fin n)
  /-- A server crashes and is started again. -/
  | restart (i : Fin n) (grow : Nat)
  /-- Anything else that happens below the handlers. -/
  | group (a : GroupAction n κ)

namespace ServiceHost

variable (host : ServiceHost τ κ α ρ)

/-- What identifies an operation. -/
def id (op : κ) : Int × Int := (host.clientId op, host.requestId op)

end ServiceHost

namespace Stack

section
variable (host : ServiceHost τ κ α ρ) (S : Stack n τ κ α ρ)

/-- Servers that have just started, and nothing else. -/
def init : Stack n τ κ α ρ where
  group := .init host.toHost
  waitChMaps := fun _ => ∅
  chans := []
  handlers := []
  clerks := fun _ => {}
  replies := []
  history := []

/-- The operations that were called. -/
def called : List κ := S.history.filterMap (·.op?)

/-- Give the group a new state. -/
def setGroup (group : ReplicaGroup n τ κ) : Stack n τ κ α ρ := { S with group }

/-- Give a handler a new state, or end it. -/
def setHandler (h : Nat) (hd : Option (StackHandler n κ α ρ)) : Stack n τ κ α ρ :=
  { S with handlers := S.handlers.set h hd }

/-- Give a clerk a new state. -/
def setClerk (c : Int) (ck : ServiceClerk κ) : Stack n τ κ α ρ :=
  { S with clerks := Function.update S.clerks c ck }

/-- Give a server a new `waitChMap`. -/
def setSlots (i : Fin n) (slots : GoMap Nat Nat) : Stack n τ κ α ρ :=
  { S with waitChMaps := Function.update S.waitChMaps i slots }

/-- Record an event. -/
def record (e : HistoryEvent (Int × Int) κ ρ) : Stack n τ κ α ρ :=
  { S with history := S.history ++ [e] }

/-- The handler goes on at `pc`. -/
def goto (h : Nat) (hd : StackHandler n κ α ρ) (pc : HandlerPc α ρ) : Stack n τ κ α ρ :=
  S.setHandler h (some { hd with pc })

/-- The `Raft` value of a server. -/
def raft (i : Fin n) : Raft n κ := (S.group.cluster.servers i).raft

/-- `notifyWaitCh`. A send to a full channel blocks. -/
def notifyWaitCh (i : Fin n) (index : Nat) (a : α) : Option (Stack n τ κ α ρ) :=
  match (S.waitChMaps i)[index]? with
  | some ch => do
    let buffer ← S.chans[ch]?
    if buffer.isSome then none
    else return { S with chans := S.chans.set ch (some a) }
  | none => some S

/-- The body of the loop of `applier`, up to the call of `rf.Snapshot`. -/
def applier (i : Fin n) : Option (Stack n τ κ α ρ) := do
  let (group, res) ← S.group.apply host.toHost i
  match (S.group.replicas i).pc, res with
  | .received (.command _ index term), some a =>
    if (S.raft i).state = .leader ∧ term = (S.raft i).currentTerm then
      (S.setGroup group).notifyWaitCh i index a
    else return S.setGroup group
  | _, _ => return S.setGroup group

/-- What a handler does next. An error is a reply that no clerk uses, so it is not recorded. -/
def handle (h : Nat) (hd : StackHandler n κ α ρ) (a : StackAction n κ) :
    Option (Stack n τ κ α ρ) :=
  match a, hd.pc with
  | .check _, .checking =>
    match host.known (S.group.replicas hd.server).state hd.op with
    | some res => some { S.setHandler h none with replies := S.replies ++ [(host.id hd.op, res)] }
    | none => some (S.goto h hd .starting)
  | .start _ grow, .starting => do
    let (_, result) ← (S.raft hd.server).start (some hd.op) grow
    let group ← S.group.step host.toHost (.start hd.server hd.op grow)
    match result with
    | none => return (S.setGroup group).setHandler h none
    | some (index, term) => return (S.setGroup group).goto h hd (.started index term)
  | .slot _, .started index term =>
    match (S.waitChMaps hd.server)[index]? with
    | some ch => some (S.goto h hd (.waiting index term ch))
    | none =>
      some {
        (S.setSlots hd.server ((S.waitChMaps hd.server).insert index S.chans.length)).goto
          h hd (.waiting index term S.chans.length) with
        chans := S.chans ++ [none] }
  | .receive _, .waiting index term ch => do
    let buffer ← S.chans[ch]?
    let res ← buffer
    return { S.goto h hd (.received index term res) with chans := S.chans.set ch none }
  | .timeout _, .waiting index _ _ => some (S.goto h hd (.leaving index none))
  | .confirm _, .received index term res =>
    if (S.raft hd.server).state = .leader ∧ (S.raft hd.server).currentTerm = term then
      some (S.goto h hd (.leaving index (some (host.reply hd.op res))))
    else some (S.goto h hd (.leaving index none))
  | .finish _, .leaving index reply =>
    let S' := (S.setSlots hd.server ((S.waitChMaps hd.server).erase index)).setHandler h none
    match reply with
    | some res => some { S' with replies := S.replies ++ [(host.id hd.op, res)] }
    | none => some S'
  | _, _ => none

/-- The handlers of a server are gone. -/
def dropHandlers (i : Fin n) : Stack n τ κ α ρ :=
  { S with handlers := S.handlers.map fun hd => hd.filter (·.server ≠ i) }

end

section
variable [DecidableEq κ] (host : ServiceHost τ κ α ρ) (S : Stack n τ κ α ρ)

/-- One step; `none` when the action is not enabled, or panics. -/
def step (a : StackAction n κ) : Option (Stack n τ κ α ρ) :=
  match a with
  | .call op =>
    let ck := S.clerks (host.clientId op)
    if ck.pending.isNone ∧ host.requestId op = ck.requestId then
      some ((S.setClerk (host.clientId op) { ck with pending := some op }).record
        (.call (host.id op) op))
    else none
  | .request i op =>
    if op ∈ S.called then some { S with handlers := S.handlers ++ [some ⟨i, op, .checking⟩] }
    else none
  | .check h | .start h _ | .slot h | .receive h | .timeout h | .confirm h | .finish h =>
    (S.handlers[h]?.join).bind fun hd => S.handle host h hd a
  | .ret j => do
    let (id, res) ← S.replies[j]?
    let ck := S.clerks id.1
    let op ← ck.pending
    if id = host.id op then
      return (S.setClerk id.1 { requestId := ck.requestId + 1 }).record (.ret id res)
    else none
  | .apply i => S.applier host i
  | .restart i grow => do
    let group ← S.group.step host.toHost (.restart i grow)
    return ((S.setGroup group).setSlots i ∅).dropHandlers i
  | .group a =>
    match a with
    | .start .. | .apply .. | .restart .. => none
    | .raft .. | .sendCommand .. | .sendSnapshot .. | .snapshot .. | .proceed .. =>
      (S.group.step host.toHost a).map S.setGroup

end

/-- Server 0 of three wins the vote of server 1, whose request is number `k`. -/
def elect (k : Nat) : List (StackAction 3 κ) :=
  [.group (.raft (.electionTimeout 0)), .group (.raft (.requestVote k)),
    .group (.raft (.requestVoteReply k))]

/-- The call number `h` goes to server 0 of three, which replicates it on server 1. -/
def replicated (h : Nat) (op : κ) : List (StackAction 3 κ) :=
  [.call op, .request 0 op, .check h, .start h 0, .slot h, .group (.raft (.replicate 0 0)),
    .group (.raft (.appendEntries 0 0)), .group (.raft (.appendEntriesReply 0)),
    .group (.raft (.takeBatch 0)), .group (.sendCommand 0)]

/-- The applier of server 0 has received the operation, and the call returns. -/
def answered (h : Nat) : List (StackAction 3 κ) :=
  [.apply 0, .receive h, .confirm h, .finish h, .ret h]

/-- The steps below the handlers are orderly. -/
def Orderly (S : Stack n τ κ α ρ) : StackAction n κ → Prop
  | .group a => S.group.Orderly a
  | _ => True

instance decidableOrderly (S : Stack n τ κ α ρ) : (a : StackAction n κ) → Decidable (S.Orderly a)
  | .group a => inferInstanceAs (Decidable (S.group.Orderly a))
  | .call .. | .request .. | .check .. | .start .. | .slot .. | .receive .. | .timeout
    .. | .confirm ..
  | .finish .. | .ret .. | .apply .. | .restart .. => isTrue trivial

end Stack

end DistLabs
