import DistLabs.Lib.Go
import DistLabs.Lib.Linearizable
import DistLabs.Lib.Replica
import DistLabs.Lib.Transition
import Mathlib.Logic.Function.Basic

/-!
# A replicated service behind wait channels

Clerks call operations, one at a time, and send them to any servers until one answers. A server's
handler may answer at once; otherwise it has Raft start the operation, puts a channel with room for
one result in the slot of the operation's index in `waitChMap`, and waits. The applier of a server
executes the common log, one entry after the other, and sends a result to the channel in the slot
of the entry's index, if the server is the leader of the entry's term. Whoever has taken a result
from the channel answers if the server is still the leader of the term in which the operation was
started. Slots are shared by the handlers whose operations got the same index, and are deleted by
any of them.

Of Raft it is assumed that all servers apply one log; that an entry of the log was started, and is
the operation of every `Start` that returned its index and its term; that terms do not decrease;
and that `Start` returns an index that the server has not applied yet.

The history of the clerks is recorded with the length of the log at every event. `Inv` says where
answers come from: an answer is that of the operation itself, at a position of the log that was
appended after the call (`Answer`), or one that a handler gave at once.
-/

namespace DistLabs.Lib

variable {σ κ α ρ : Type}

/-- A service: how it executes operations of type `κ`, with results of type `α` and replies of type
`ρ`. -/
structure Machine (σ κ α ρ : Type) where
  init : σ
  /-- Execute an operation; `none` is a panic. -/
  execute : σ → κ → Option (σ × α)
  /-- The reply that a handler gives at once. -/
  known : σ → κ → Option ρ
  /-- The reply to an operation when its handler has got a result. -/
  reply : κ → α → ρ
  clientId : κ → Int
  requestId : κ → Int

/-- What identifies an operation. -/
def Machine.id (m : Machine σ κ α ρ) (op : κ) : Int × Int := (m.clientId op, m.requestId op)

/-- An entry of the log. -/
structure ServiceEntry (κ : Type) where
  term : Nat
  op : κ

/-- A call of `rf.Start` and what it returned. -/
structure Start (κ : Type) where
  server : Nat
  index : Nat
  term : Nat
  op : κ

/-- The state after the first `k` entries, unless executing them panics. -/
def Machine.stateAt (m : Machine σ κ α ρ) (log : List (ServiceEntry κ)) (k : Nat) : Option σ :=
  replica (fun s e => s.bind fun s => (m.execute s e.op).map (·.1)) (some m.init) log k

/-- What a server has: the state of the service, how many entries it has applied, what `GetState`
returns, and the channel in the slot of each index. -/
structure ServiceServer (σ : Type) where
  store : σ
  applied : Nat := 0
  currentTerm : Nat := 0
  isLeader : Bool := false
  waitChMap : GoMap Nat Nat := ∅

/-- A channel with room for one result. It was made by a server, for an index. -/
structure WaitChannel (α : Type) where
  server : Nat
  index : Nat
  buffer : Option α

/-- Where a handler is. -/
inductive HandlerPc (α ρ : Type) where
  | checking
  | starting
  | started (index term : Nat)
  | waiting (index term ch : Nat)
  | received (index term : Nat) (res : α)
  | leaving (index : Nat) (reply : Option ρ)

/-- A handler that runs on a server, with the request it deals with and how far it is. -/
structure ServiceHandler (κ α ρ : Type) where
  server : Nat
  op : κ
  pc : HandlerPc α ρ

/-- Where a reply comes from: the check of a handler on a server that had applied `k` entries, or
the entry at position `p` of the log. -/
inductive ReplySource where
  | known (k : Nat)
  | logged (p : Nat)

/-- A reply that is not an error. -/
structure ServiceReply (ρ : Type) where
  id : Int × Int
  res : ρ
  source : ReplySource

/-- A clerk: the number of its next request, and the one it waits for. -/
structure ServiceClerk (κ : Type) where
  requestId : Int := 0
  pending : Option κ := none

/-- The clerks, the servers with their handlers and channels, and what Raft knows. -/
structure Service (σ κ α ρ : Type) where
  log : List (ServiceEntry κ)
  starts : List (Start κ)
  servers : Nat → ServiceServer σ
  chans : List (WaitChannel α)
  handlers : Nat → Option (ServiceHandler κ α ρ)
  clerks : Int → ServiceClerk κ
  replies : List (ServiceReply ρ)
  history : List (HistoryEvent (Int × Int) κ ρ × Nat)

/-- The steps of a service. `h` is a handler and `s` a server. -/
inductive ServiceAction (κ : Type) where
  /-- A clerk calls an operation. -/
  | call (op : κ)
  /-- A request arrives. -/
  | request (h s : Nat) (op : κ)
  /-- The handler looks whether it can answer at once. -/
  | check (h : Nat)
  /-- `rf.Start` returns `index`. -/
  | start (h index : Nat)
  /-- The handler looks up the slot of its index, or makes it. -/
  | slot (h : Nat)
  /-- The handler takes a result from its channel. -/
  | receive (h : Nat)
  /-- The handler has waited for too long. -/
  | timeout (h : Nat)
  /-- The handler asks `GetState` whether it may use the result. -/
  | confirm (h : Nat)
  /-- The handler deletes the slot of its index and returns. -/
  | finish (h : Nat)
  /-- The term and the role of a server change. -/
  | raft (s term : Nat) (isLeader : Bool)
  /-- The operation of the `Start` number `k` is the next entry of the log. -/
  | commit (k : Nat)
  /-- The applier executes the next entry. -/
  | apply (s : Nat)
  /-- A server gets a snapshot of the first `k` entries. -/
  | install (s k : Nat)
  /-- A reply gets to its clerk, and the call returns. -/
  | ret (j : Nat)

namespace Service

section
variable (m : Machine σ κ α ρ) (net : Service σ κ α ρ)

/-- Nothing has happened yet. -/
def init : Service σ κ α ρ where
  log := []
  starts := []
  servers := fun _ => { store := m.init }
  chans := []
  handlers := fun _ => none
  clerks := fun _ => {}
  replies := []
  history := []

/-- What the clerks see. -/
def events : List (HistoryEvent (Int × Int) κ ρ) := net.history.map (·.1)

/-- The operations that were called. -/
def called : List κ := net.history.filterMap (·.1.op?)

/-- Record an event at the current time, which is the length of the log. -/
def record (e : HistoryEvent (Int × Int) κ ρ) : Service σ κ α ρ :=
  { net with history := net.history ++ [(e, net.log.length)] }

/-- Give a server a new state. -/
def setServer (s : Nat) (sv : ServiceServer σ) : Service σ κ α ρ :=
  { net with servers := Function.update net.servers s sv }

/-- Give a handler a new state, or end it. -/
def setHandler (h : Nat) (hd : Option (ServiceHandler κ α ρ)) : Service σ κ α ρ :=
  { net with handlers := Function.update net.handlers h hd }

/-- Give a clerk a new state. -/
def setClerk (c : Int) (ck : ServiceClerk κ) : Service σ κ α ρ :=
  { net with clerks := Function.update net.clerks c ck }

/-- `notifyWaitCh`. A send to a full channel blocks. -/
def notifyWaitCh (s index : Nat) (a : α) : Option (Service σ κ α ρ) :=
  match (net.servers s).waitChMap[index]? with
  | some ch => do
    let chan ← net.chans[ch]?
    if chan.buffer.isSome then none
    else return { net with chans := net.chans.set ch { chan with buffer := some a } }
  | none => some net

/-- The body of the loop of `applier`. -/
def applier (s : Nat) : Option (Service σ κ α ρ) := do
  let sv := net.servers s
  let entry ← net.log[sv.applied]?
  let (store, a) ← m.execute sv.store entry.op
  let net := net.setServer s { sv with store, applied := sv.applied + 1 }
  if sv.isLeader ∧ entry.term = sv.currentTerm then net.notifyWaitCh s (sv.applied + 1) a
  else return net

/-- The handler goes on at `pc`. -/
def goto (h : Nat) (hd : ServiceHandler κ α ρ) (pc : HandlerPc α ρ) : Service σ κ α ρ :=
  net.setHandler h (some { hd with pc })

/-- What is assumed of the index that `Start` returns. -/
def MayStart (sv : ServiceServer σ) (op : κ) (index : Nat) : Prop :=
  sv.applied < index ∧ ∀ e ∈ net.log[index - 1]?, e.term = sv.currentTerm → e.op = op

/-- What is assumed of an entry that is appended to the log. -/
def MayCommit (st : Start κ) : Prop :=
  st.index = net.log.length + 1 ∧
    ∀ st' ∈ net.starts, st'.index = st.index → st'.term = st.term → st'.op = st.op

end

section
variable [DecidableEq κ] (m : Machine σ κ α ρ) (net : Service σ κ α ρ)

instance (sv : ServiceServer σ) (op : κ) (index : Nat) : Decidable (net.MayStart sv op index) :=
  inferInstanceAs (Decidable (_ ∧ ∀ _ ∈ _, _))

instance (st : Start κ) : Decidable (net.MayCommit st) :=
  inferInstanceAs (Decidable (_ ∧ ∀ _ ∈ _, _))

/-- What a handler does next. An error is a reply that no clerk uses, so it is not recorded. -/
def handle (h : Nat) (hd : ServiceHandler κ α ρ) (a : ServiceAction κ) :
    Option (Service σ κ α ρ) :=
  let sv := net.servers hd.server
  match a, hd.pc with
  | .check _, .checking =>
    match m.known sv.store hd.op with
    | some res => some { net.setHandler h none with
        replies := net.replies ++ [⟨m.id hd.op, res, .known sv.applied⟩] }
    | none => some (net.goto h hd .starting)
  | .start _ index, .starting =>
    if ¬ sv.isLeader then some (net.setHandler h none)
    else if net.MayStart sv hd.op index then
      some { net.goto h hd (.started index sv.currentTerm) with
        starts := net.starts ++ [⟨hd.server, index, sv.currentTerm, hd.op⟩] }
    else none
  | .slot _, .started index term =>
    match sv.waitChMap[index]? with
    | some ch => some (net.goto h hd (.waiting index term ch))
    | none =>
      let ch := net.chans.length
      some {
        (net.setServer hd.server { sv with waitChMap := sv.waitChMap.insert index ch }).goto
          h hd (.waiting index term ch) with
        chans := net.chans ++ [⟨hd.server, index, none⟩] }
  | .receive _, .waiting index term ch => do
    let chan ← net.chans[ch]?
    let res ← chan.buffer
    return { net.goto h hd (.received index term res) with
      chans := net.chans.set ch { chan with buffer := none } }
  | .timeout _, .waiting index _ _ => some (net.goto h hd (.leaving index none))
  | .confirm _, .received index term res =>
    if sv.isLeader ∧ sv.currentTerm = term then
      some (net.goto h hd (.leaving index (some (m.reply hd.op res))))
    else some (net.goto h hd (.leaving index none))
  | .finish _, .leaving index reply =>
    let net := net.setServer hd.server { sv with waitChMap := sv.waitChMap.erase index }
    match reply with
    | some res => some { net.setHandler h none with
        replies := net.replies ++ [⟨m.id hd.op, res, .logged (index - 1)⟩] }
    | none => some (net.setHandler h none)
  | _, _ => none

/-- One step; `none` when the action is not enabled, or panics. -/
def step (a : ServiceAction κ) : Option (Service σ κ α ρ) :=
  match a with
  | .call op =>
    let ck := net.clerks (m.clientId op)
    if ck.pending.isNone ∧ m.requestId op = ck.requestId then
      some ((net.setClerk (m.clientId op) { ck with pending := some op }).record
        (.call (m.id op) op))
    else none
  | .request h s op =>
    if op ∈ net.called ∧ (net.handlers h).isNone then
      some (net.setHandler h (some ⟨s, op, .checking⟩))
    else none
  | .check h | .start h _ | .slot h | .receive h | .timeout h | .confirm h | .finish h =>
    (net.handlers h).bind fun hd => net.handle m h hd a
  | .raft s term isLeader =>
    let sv := net.servers s
    if sv.currentTerm ≤ term then some (net.setServer s { sv with currentTerm := term, isLeader })
    else none
  | .commit k => do
    let st ← net.starts[k]?
    if net.MayCommit st then return { net with log := net.log ++ [⟨st.term, st.op⟩] }
    else none
  | .apply s => net.applier m s
  | .install s k => do
    let sv := net.servers s
    let store ← m.stateAt net.log k
    if sv.applied < k ∧ k ≤ net.log.length then
      return net.setServer s { sv with store, applied := k }
    else none
  | .ret j => do
    let rep ← net.replies[j]?
    let ck := net.clerks rep.id.1
    let op ← ck.pending
    if rep.id = m.id op then
      return (net.setClerk rep.id.1 { requestId := ck.requestId + 1 }).record (.ret rep.id rep.res)
    else none

end

/-- The call number `h` goes to server 0, which gets it through the log. -/
def viaLog (h : Nat) (op : κ) : List (ServiceAction κ) :=
  [.call op, .request h 0 op, .check h, .start h (h + 1), .slot h, .commit h, .apply 0, .receive h,
    .confirm h, .finish h, .ret h]

/-! ## What a step can do -/

/-- The steps, one by one. -/
inductive Steps (m : Machine σ κ α ρ) (net : Service σ κ α ρ) :
    ServiceAction κ → Service σ κ α ρ → Prop
  | call {op : κ} (hnone : (net.clerks (m.clientId op)).pending = none)
      (hid : m.requestId op = (net.clerks (m.clientId op)).requestId) :
      Steps m net (.call op) ((net.setClerk (m.clientId op) ⟨m.requestId op, some op⟩).record
        (.call (m.id op) op))
  | request {h s : Nat} {op : κ} (hop : op ∈ net.called) :
      Steps m net (.request h s op) (net.setHandler h (some ⟨s, op, .checking⟩))
  | answer {h s : Nat} {op : κ} {res : ρ} (hhd : net.handlers h = some ⟨s, op, .checking⟩)
      (hknown : m.known (net.servers s).store op = some res) :
      Steps m net (.check h) { net.setHandler h none with
        replies := net.replies ++ [⟨m.id op, res, .known (net.servers s).applied⟩] }
  | check {h s : Nat} {op : κ} (hhd : net.handlers h = some ⟨s, op, .checking⟩) :
      Steps m net (.check h) (net.setHandler h (some ⟨s, op, .starting⟩))
  | refuse {h s index : Nat} {op : κ} (hhd : net.handlers h = some ⟨s, op, .starting⟩) :
      Steps m net (.start h index) (net.setHandler h none)
  | start {h s index : Nat} {op : κ} (hhd : net.handlers h = some ⟨s, op, .starting⟩)
      (hmay : net.MayStart (net.servers s) op index) :
      Steps m net (.start h index)
        { net.setHandler h (some ⟨s, op, .started index (net.servers s).currentTerm⟩) with
          starts := net.starts ++ [⟨s, index, (net.servers s).currentTerm, op⟩] }
  | slot {h s index term ch : Nat} {op : κ}
      (hhd : net.handlers h = some ⟨s, op, .started index term⟩)
      (hch : (net.servers s).waitChMap[index]? = some ch) :
      Steps m net (.slot h) (net.setHandler h (some ⟨s, op, .waiting index term ch⟩))
  | makeSlot {h s index term : Nat} {op : κ}
      (hhd : net.handlers h = some ⟨s, op, .started index term⟩) :
      Steps m net (.slot h) { (net.setServer s { net.servers s with
          waitChMap := (net.servers s).waitChMap.insert index net.chans.length }).setHandler h
          (some ⟨s, op, .waiting index term net.chans.length⟩) with
        chans := net.chans ++ [⟨s, index, none⟩] }
  | receive {h s index term ch : Nat} {op : κ} {chan : WaitChannel α} {res : α}
      (hhd : net.handlers h = some ⟨s, op, .waiting index term ch⟩)
      (hch : net.chans[ch]? = some chan) (hres : chan.buffer = some res) :
      Steps m net (.receive h) { net.setHandler h (some ⟨s, op, .received index term res⟩) with
        chans := net.chans.set ch { chan with buffer := none } }
  | timeout {h s index term ch : Nat} {op : κ}
      (hhd : net.handlers h = some ⟨s, op, .waiting index term ch⟩) :
      Steps m net (.timeout h) (net.setHandler h (some ⟨s, op, .leaving index none⟩))
  | confirm {h s index term : Nat} {op : κ} {res : α}
      (hhd : net.handlers h = some ⟨s, op, .received index term res⟩)
      (hterm : (net.servers s).currentTerm = term) :
      Steps m net (.confirm h)
        (net.setHandler h (some ⟨s, op, .leaving index (some (m.reply op res))⟩))
  | deny {h s index term : Nat} {op : κ} {res : α}
      (hhd : net.handlers h = some ⟨s, op, .received index term res⟩) :
      Steps m net (.confirm h) (net.setHandler h (some ⟨s, op, .leaving index none⟩))
  | finish {h s index : Nat} {op : κ} {reply : Option ρ}
      (hhd : net.handlers h = some ⟨s, op, .leaving index reply⟩) :
      Steps m net (.finish h) { (net.setServer s { net.servers s with
          waitChMap := (net.servers s).waitChMap.erase index }).setHandler h none with
        replies := net.replies ++
          (reply.map fun res => ⟨m.id op, res, .logged (index - 1)⟩).toList }
  | raft {s term : Nat} {isLeader : Bool} (hterm : (net.servers s).currentTerm ≤ term) :
      Steps m net (.raft s term isLeader)
        (net.setServer s { net.servers s with currentTerm := term, isLeader })
  | commit {k : Nat} {st : Start κ} (hst : st ∈ net.starts) (hmay : net.MayCommit st) :
      Steps m net (.commit k) { net with log := net.log ++ [⟨st.term, st.op⟩] }
  | apply {s : Nat} {entry : ServiceEntry κ} {store : σ} {a : α}
      (hentry : net.log[(net.servers s).applied]? = some entry)
      (hexec : m.execute (net.servers s).store entry.op = some (store, a)) :
      Steps m net (.apply s) (net.setServer s { net.servers s with
        store, applied := (net.servers s).applied + 1 })
  | notify {s ch : Nat} {entry : ServiceEntry κ} {store : σ} {a : α} {chan : WaitChannel α}
      (hentry : net.log[(net.servers s).applied]? = some entry)
      (hexec : m.execute (net.servers s).store entry.op = some (store, a))
      (hterm : entry.term = (net.servers s).currentTerm)
      (hslot : (net.servers s).waitChMap[(net.servers s).applied + 1]? = some ch)
      (hch : net.chans[ch]? = some chan) :
      Steps m net (.apply s) { net.setServer s { net.servers s with
          store, applied := (net.servers s).applied + 1 } with
        chans := net.chans.set ch { chan with buffer := some a } }
  | install {s k : Nat} {store : σ} (hstore : m.stateAt net.log k = some store)
      (hlt : (net.servers s).applied < k) (hle : k ≤ net.log.length) :
      Steps m net (.install s k) (net.setServer s { net.servers s with store, applied := k })
  | ret {j : Nat} {rep : ServiceReply ρ} {op : κ} (hrep : net.replies[j]? = some rep)
      (hop : (net.clerks rep.id.1).pending = some op) (hid : rep.id = m.id op) :
      Steps m net (.ret j) ((net.setClerk rep.id.1
        { requestId := (net.clerks rep.id.1).requestId + 1 }).record (.ret rep.id rep.res))

variable {m : Machine σ κ α ρ} {net net' : Service σ κ α ρ}

/-- An iteration of `applier` is a step. -/
theorem applier_cases {s : Nat} (hst : net.applier m s = some net') :
    Steps m net (.apply s) net' := by
  unfold applier at hst
  simp only [Option.bind_eq_bind, Option.bind_eq_some_iff] at hst
  obtain ⟨entry, hentry, ⟨store, a⟩, hexec, hst⟩ := hst
  split at hst
  swap
  · cases hst
    exact .apply hentry hexec
  next hleads =>
  unfold notifyWaitCh at hst
  simp only [setServer, Function.update_self] at hst
  split at hst
  swap
  · cases hst
    exact .apply hentry hexec
  next ch hslot =>
  rw [Option.bind_eq_bind, Option.bind_eq_some_iff] at hst
  obtain ⟨chan, hch, hst⟩ := hst
  split at hst
  · cases hst
  · cases hst
    exact .notify hentry hexec hleads.2 hslot hch

/-- Every step is one of `Steps`. -/
theorem step_cases [DecidableEq κ] {a : ServiceAction κ} (hst : net.step m a = some net') :
    Steps m net a net' := by
  cases a with
  | call op =>
    simp only [step] at hst
    split at hst
    · next hc =>
      obtain ⟨hnone, hid⟩ := hc
      cases hst
      rw [← hid]
      exact .call (Option.isNone_iff_eq_none.1 hnone) hid
    · cases hst
  | request h s op =>
    simp only [step] at hst
    split at hst
    · next hc =>
      cases hst
      exact .request hc.1
    · cases hst
  | check h =>
    obtain ⟨⟨s, op, pc⟩, hhd, hst⟩ := Option.bind_eq_some_iff.1 hst
    cases pc with
    | checking =>
      simp only [handle] at hst
      split at hst
      · next res hknown =>
        cases hst
        exact .answer hhd hknown
      · cases hst
        exact .check hhd
    | _ => cases hst
  | start h index =>
    obtain ⟨⟨s, op, pc⟩, hhd, hst⟩ := Option.bind_eq_some_iff.1 hst
    cases pc with
    | starting =>
      simp only [handle] at hst
      split at hst
      · cases hst
        exact .refuse hhd
      · split at hst
        · next hmay =>
          cases hst
          exact .start hhd hmay
        · cases hst
    | _ => cases hst
  | slot h =>
    obtain ⟨⟨s, op, pc⟩, hhd, hst⟩ := Option.bind_eq_some_iff.1 hst
    cases pc with
    | started index term =>
      simp only [handle] at hst
      split at hst
      · next ch hch =>
        cases hst
        exact .slot hhd hch
      · cases hst
        exact .makeSlot hhd
    | _ => cases hst
  | receive h =>
    obtain ⟨⟨s, op, pc⟩, hhd, hst⟩ := Option.bind_eq_some_iff.1 hst
    cases pc with
    | waiting index term ch =>
      simp only [handle, Option.bind_eq_bind, Option.bind_eq_some_iff] at hst
      obtain ⟨chan, hch, res, hres, hst⟩ := hst
      cases hst
      exact .receive hhd hch hres
    | _ => cases hst
  | timeout h =>
    obtain ⟨⟨s, op, pc⟩, hhd, hst⟩ := Option.bind_eq_some_iff.1 hst
    cases pc with
    | waiting index term ch =>
      cases hst
      exact .timeout hhd
    | _ => cases hst
  | confirm h =>
    obtain ⟨⟨s, op, pc⟩, hhd, hst⟩ := Option.bind_eq_some_iff.1 hst
    cases pc with
    | received index term res =>
      simp only [handle] at hst
      split at hst
      · next hc =>
        cases hst
        exact .confirm hhd hc.2
      · cases hst
        exact .deny hhd
    | _ => cases hst
  | finish h =>
    obtain ⟨⟨s, op, pc⟩, hhd, hst⟩ := Option.bind_eq_some_iff.1 hst
    cases pc with
    | leaving index reply =>
      cases reply with
      | none =>
        cases hst
        have hfin := Steps.finish (m := m) hhd
        rw [Option.map_none, Option.toList_none, List.append_nil] at hfin
        exact hfin
      | some res =>
        cases hst
        exact .finish hhd
    | _ => cases hst
  | raft s term isLeader =>
    simp only [step] at hst
    split at hst
    · next hterm =>
      cases hst
      exact .raft hterm
    · cases hst
  | commit k =>
    simp only [step, Option.bind_eq_bind, Option.bind_eq_some_iff] at hst
    obtain ⟨st, hget, hst⟩ := hst
    split at hst
    · next hmay =>
      cases hst
      exact .commit (List.mem_of_getElem? hget) hmay
    · cases hst
  | apply s => exact applier_cases hst
  | install s k =>
    simp only [step, Option.bind_eq_bind, Option.bind_eq_some_iff] at hst
    obtain ⟨store, hstore, hst⟩ := hst
    split at hst
    · next hc =>
      cases hst
      exact .install hstore hc.1 hc.2
    · cases hst
  | ret j =>
    simp only [step, Option.bind_eq_bind, Option.bind_eq_some_iff] at hst
    obtain ⟨rep, hrep, op, hop, hst⟩ := hst
    split at hst
    · next hid =>
      cases hst
      exact .ret hrep hop hid
    · cases hst

end Service

end DistLabs.Lib
