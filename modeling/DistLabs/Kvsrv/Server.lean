import DistLabs.Lib.Go
import DistLabs.Lib.Linearizable
import DistLabs.Lib.Transition
import Mathlib.Logic.Function.Basic

/-!
# The server of `kvsrv/server.go`, its clerks and the network

One server, without Raft. `Put` and `Append` remember the reply under the id of the request, so
that a retry finds it there, and `Finish` forgets it. A clerk calls a handler until `Call` returns
`true`, and after a write it calls `Finish` in the same way.

The network is labrpc's. A request may be lost, and so may a reply; `Call` then returns `false`. It
may also return `false` before the handler has run: `processReq` starts the handler in a goroutine
and stops waiting for it once the end is disabled. So a request that was sent stays `pending`,
whatever becomes of the `Call`, until its handler runs.
-/

namespace DistLabs.Kvsrv

open Lib

/-! ## The handlers -/

/-- `PutAppendArgs`. -/
structure PutAppendArgs where
  key : GoString
  value : GoString
  id : Int
  deriving DecidableEq

/-- The fields of `KVServer` but the lock. -/
structure KVServer where
  data : GoMap GoString GoString
  request : GoMap Int GoString

namespace KVServer

/-- `StartKVServer`. -/
def startKVServer : KVServer := ⟨∅, ∅⟩

variable (kv : KVServer)

/-- `Get`. -/
def get (key : GoString) : GoString := kv.data[key]?.getD []

/-- `Put`. -/
def put (args : PutAppendArgs) : KVServer × GoString :=
  match kv.request[args.id]? with
  | some value => (kv, value)
  | none =>
    (⟨kv.data.insert args.key args.value, kv.request.insert args.id args.value⟩, args.value)

/-- `Append`. -/
def append (args : PutAppendArgs) : KVServer × GoString :=
  match kv.request[args.id]? with
  | some value => (kv, value)
  | none =>
    let oldValue := kv.get args.key
    (⟨kv.data.insert args.key (oldValue ++ args.value), kv.request.insert args.id oldValue⟩,
      oldValue)

/-- `Finish`. -/
def finish (args : PutAppendArgs) : KVServer := { kv with request := kv.request.erase args.id }

end KVServer

/-- The parameter `op` of `PutAppend`. -/
inductive WriteOp where
  | put
  | append
  deriving DecidableEq

/-- The name of a handler and its arguments. -/
inductive Request where
  | get (key : GoString)
  | putAppend (op : WriteOp) (args : PutAppendArgs)
  | finish (args : PutAppendArgs)
  deriving DecidableEq

/-- The id of a write. -/
def Request.writeId : Request → Option Int
  | .putAppend _ args => some args.id
  | _ => none

/-- The id that `Finish` forgets. -/
def Request.finishId : Request → Option Int
  | .finish args => some args.id
  | _ => none

/-- Run a handler: the new state and the reply. -/
def KVServer.dispatch (kv : KVServer) : Request → KVServer × GoString
  | .get key => (kv, kv.get key)
  | .putAppend .put args => kv.put args
  | .putAppend .append args => kv.append args
  | .finish args => (kv.finish args, [])

/-- The handler is at the branch of `Put` or `Append` that assigns to `data`. -/
def KVServer.changes (kv : KVServer) (request : Request) : Bool :=
  match request with
  | .putAppend _ args => kv.request[args.id]?.isNone
  | _ => false

/-! ## The clerks -/

/-- A call of `Clerk.Get` or `Clerk.PutAppend`. -/
inductive Op where
  | get (key : GoString)
  | putAppend (key value : GoString) (op : WriteOp)
  deriving DecidableEq

/-- The first request of a call. -/
def Op.request (id : Int) : Op → Request
  | .get key => .get key
  | .putAppend key value op => .putAppend op ⟨key, value, id⟩

/-- The call has an id. -/
def Op.isWrite : Op → Bool
  | .get _ => false
  | .putAppend .. => true

/-- A call, how far it is, and `reply`, with the number of the execution that it is from. The
second loop of `PutAppend` comes after the reply. -/
structure Call where
  op : Op
  id : Int
  attempt : Nat := 0
  waiting : Bool := false
  reply : Option (GoString × Nat) := none
  finished : Bool := false
  returned : Bool := false
  deriving DecidableEq

namespace Call

/-- A call that has just been entered. -/
def enter (op : Op) (id : Int) : Call := { op, id }

/-- What the loop that the call is in sends, if it is in one. -/
def next (c : Call) : Option Request :=
  match c.reply, c.op with
  | none, op => some (op.request c.id)
  | some _, .get _ => none
  | some _, .putAppend key value _ =>
    if c.finished then none else some (.finish ⟨key, value, c.id⟩)

/-- `Call` returns `true`, with what execution `p` has replied. The reply to `Finish` is not
used. -/
def receive (c : Call) (value : GoString) (p : Nat) : Call :=
  match c.reply with
  | none => { c with waiting := false, reply := some (value, p) }
  | some _ => { c with waiting := false, finished := true }

end Call

/-! ## The system -/

/-- A request on its way, with the call that it is for and the attempt. -/
structure Rpc where
  call : Nat
  attempt : Nat
  request : Request
  deriving DecidableEq

/-- An execution of a handler, with its reply. -/
structure Exec where
  rpc : Rpc
  value : GoString
  deriving DecidableEq

/-- The server, the counter `id` of the process, the calls, the requests that have not been
executed, and, as ghosts, the executions and the history. The time of an event is the number of
executions so far. -/
structure Net where
  server : KVServer
  id : Int
  calls : List Call
  pending : List Rpc
  execs : List Exec
  history : List (HistoryEvent Nat Op GoString × Nat)

/-- What can happen. -/
inductive Action where
  /-- A clerk enters `Get` or `PutAppend`. -/
  | call (op : Op)
  /-- The loop of a call enters `Call`. -/
  | send (i : Nat)
  /-- The handler of a pending request runs. -/
  | exec (k : Nat)
  /-- `Call` returns `false`. -/
  | fail (i : Nat)
  /-- `Call` returns `true` with the reply of an execution. -/
  | recv (p : Nat)
  /-- `Get` or `PutAppend` returns. -/
  | ret (i : Nat)

namespace Net

/-- Before the first call. -/
def init : Net := ⟨.startKVServer, 0, [], [], [], []⟩

/-- One step of the system. -/
def step (net : Net) : Action → Option Net
  | .call op =>
    let id := if op.isWrite then net.id + 1 else net.id
    some { net with
      id
      calls := net.calls ++ [.enter op id]
      history := net.history ++ [(.call net.calls.length op, net.execs.length)] }
  | .send i => do
    let c ← net.calls[i]?
    let request ← c.next
    guard ¬ c.waiting
    return { net with
      calls := net.calls.set i { c with waiting := true, attempt := c.attempt + 1 }
      pending := net.pending ++ [⟨i, c.attempt + 1, request⟩] }
  | .exec k => do
    let rpc ← net.pending[k]?
    let (server, value) := net.server.dispatch rpc.request
    return { net with
      server
      pending := net.pending.eraseIdx k
      execs := net.execs ++ [⟨rpc, value⟩] }
  | .fail i => do
    let c ← net.calls[i]?
    guard c.waiting
    return { net with calls := net.calls.set i { c with waiting := false } }
  | .recv p => do
    let e ← net.execs[p]?
    let c ← net.calls[e.rpc.call]?
    guard (c.waiting ∧ c.attempt = e.rpc.attempt)
    return { net with calls := net.calls.set e.rpc.call (c.receive e.value p) }
  | .ret i => do
    let c ← net.calls[i]?
    let (value, _) ← c.reply
    guard (c.next = none ∧ ¬ c.returned)
    return { net with
      calls := net.calls.set i { c with returned := true }
      history := net.history ++ [(.ret i value, net.execs.length)] }

/-- What clients see. -/
def events (net : Net) : List (HistoryEvent Nat Op GoString) := net.history.map (·.1)

/-- A step, with what it needs. -/
inductive Stepped (net : Net) : Action → Net → Prop where
  | call {op : Op} {id : Int} (hid : id = if op.isWrite then net.id + 1 else net.id) :
      Stepped net (.call op) { net with
        id
        calls := net.calls ++ [.enter op id]
        history := net.history ++ [(.call net.calls.length op, net.execs.length)] }
  | send {i : Nat} {c : Call} {request : Request} (hc : net.calls[i]? = some c)
      (hnext : c.next = some request) :
      Stepped net (.send i) { net with
        calls := net.calls.set i { c with waiting := true, attempt := c.attempt + 1 }
        pending := net.pending ++ [⟨i, c.attempt + 1, request⟩] }
  | exec {k : Nat} {rpc : Rpc} (hrpc : net.pending[k]? = some rpc) :
      Stepped net (.exec k) { net with
        server := (net.server.dispatch rpc.request).1
        pending := net.pending.eraseIdx k
        execs := net.execs ++ [⟨rpc, (net.server.dispatch rpc.request).2⟩] }
  | fail {i : Nat} {c : Call} (hc : net.calls[i]? = some c) :
      Stepped net (.fail i) { net with calls := net.calls.set i { c with waiting := false } }
  | recv {p : Nat} {e : Exec} {c : Call} (he : net.execs[p]? = some e)
      (hc : net.calls[e.rpc.call]? = some c) (hwaiting : c.waiting)
      (hattempt : c.attempt = e.rpc.attempt) :
      Stepped net (.recv p)
        { net with calls := net.calls.set e.rpc.call (c.receive e.value p) }
  | ret {i : Nat} {c : Call} {value : GoString} {p : Nat} (hc : net.calls[i]? = some c)
      (hreply : c.reply = some (value, p)) :
      Stepped net (.ret i) { net with
        calls := net.calls.set i { c with returned := true }
        history := net.history ++ [(.ret i value, net.execs.length)] }

/-- A step of the network is one of those that `Stepped` lists. -/
theorem stepped_of_step {net net' : Net} {a : Action} (h : net.step a = some net') :
    net.Stepped a net' := by
  cases a with
  | call op =>
    cases h
    exact .call rfl
  | send i =>
    simp only [step, Option.bind_eq_bind, Option.bind_eq_some_iff] at h
    obtain ⟨c, hc, request, hnext, -, -, h⟩ := h
    cases h
    exact .send hc hnext
  | exec k =>
    simp only [step, Option.bind_eq_bind, Option.bind_eq_some_iff] at h
    obtain ⟨rpc, hrpc, h⟩ := h
    cases h
    exact .exec hrpc
  | fail i =>
    simp only [step, Option.bind_eq_bind, Option.bind_eq_some_iff] at h
    obtain ⟨c, hc, -, -, h⟩ := h
    cases h
    exact .fail hc
  | recv p =>
    simp only [step, Option.bind_eq_bind, Option.bind_eq_some_iff, Option.guard_eq_some'] at h
    obtain ⟨e, he, c, hc, -, hguard, h⟩ := h
    cases h
    exact .recv he hc hguard.1 hguard.2
  | ret i =>
    simp only [step, Option.bind_eq_bind, Option.bind_eq_some_iff] at h
    obtain ⟨c, hc, ⟨value, p⟩, hreply, -, -, h⟩ := h
    cases h
    exact .ret hc hreply

end Net

/-! ## The map that the clerks see -/

/-- A map from strings to strings. `Append` returns the old value. -/
def kvModel (db : GoString → GoString) : Op → (GoString → GoString) × GoString
  | .get key => (db, db key)
  | .putAppend key value .put => (Function.update db key value, value)
  | .putAppend key value .append => (Function.update db key (db key ++ value), db key)

namespace KVServer

variable {kv : KVServer} {op : WriteOp} {args : PutAppendArgs} {request : Request}
  {value : GoString}
  {x : Int}

/-- What clients see after an assignment. -/
theorem get_insert (data : GoMap GoString GoString) (requests : GoMap Int GoString)
    (key value : GoString) :
    (KVServer.mk (data.insert key value) requests).get =
      Function.update (KVServer.mk data requests).get key value := by
  funext a
  simp only [get, GoMap.getElem?_insert, Function.update_apply]
  split <;> rfl

/-- A retry is answered from the table. -/
theorem dispatch_known (h : kv.request[args.id]? = some value) :
    kv.dispatch (.putAppend op args) = (kv, value) := by
  cases op with
  | put => simp only [dispatch, put, h]
  | append => simp only [dispatch, append, h]

/-- A write that is not in the table is made, and its reply remembered. -/
theorem dispatch_new (h : kv.request[args.id]? = none) :
    (kv.dispatch (.putAppend op args)).1.get =
        (kvModel kv.get (.putAppend args.key args.value op)).1 ∧
      (kv.dispatch (.putAppend op args)).2 =
        (kvModel kv.get (.putAppend args.key args.value op)).2 ∧
      (kv.dispatch (.putAppend op args)).1.request =
        kv.request.insert args.id (kv.dispatch (.putAppend op args)).2 := by
  cases op with
  | put =>
    simp only [dispatch, put, h]
    exact ⟨get_insert .., rfl, trivial⟩
  | append =>
    simp only [dispatch, append, h]
    exact ⟨get_insert .., rfl, trivial⟩

/-- Only a write that is not in the table changes the map. -/
theorem get_dispatch (h : ¬ kv.changes request) : (kv.dispatch request).1.get = kv.get := by
  cases request with
  | get key => rfl
  | finish args => rfl
  | putAppend op args =>
    have hsome : kv.request[args.id]? ≠ none := by simpa [changes] using h
    obtain ⟨value, hvalue⟩ := Option.ne_none_iff_exists'.1 hsome
    rw [dispatch_known hvalue]

/-- After a write, the table has its reply. -/
theorem request_of_write (h : request.writeId = some x) :
    (kv.dispatch request).1.request[x]? = some (kv.dispatch request).2 := by
  cases request with
  | get key => cases h
  | finish args => cases h
  | putAppend op args =>
    cases h
    cases hr : kv.request[args.id]? with
    | none => rw [(dispatch_new hr).2.2, GoMap.getElem?_insert, if_pos rfl]
    | some value => rw [dispatch_known hr, hr]

/-- After `Finish`, the table has no reply. -/
theorem request_of_finish (h : request.finishId = some x) :
    (kv.dispatch request).1.request[x]? = none := by
  cases request with
  | finish args =>
    cases h
    exact Std.ExtTreeMap.getElem?_erase_self
  | get key | putAppend op args => cases h

/-- A write of another id leaves the entry of an id alone. -/
theorem request_of_ne (hw : request.writeId ≠ some x) (hf : request.finishId ≠ some x) :
    (kv.dispatch request).1.request[x]? = kv.request[x]? := by
  cases request with
  | get key => rfl
  | finish args =>
    have hne : args.id ≠ x := fun heq => hf (congrArg some heq)
    simp only [dispatch, finish, Std.ExtTreeMap.getElem?_erase, compare_eq_iff_eq, hne, if_false]
  | putAppend op args =>
    have hne : x ≠ args.id := fun heq => hw (congrArg some heq.symm)
    cases hr : kv.request[args.id]? with
    | none => rw [(dispatch_new hr).2.2, GoMap.getElem?_insert, if_neg hne]
    | some value => rw [dispatch_known hr]

/-- The table keeps a reply until `Finish`, also when the write is repeated. -/
theorem request_kept (h : kv.request[x]? = some value) (hf : request.finishId ≠ some x) :
    (kv.dispatch request).1.request[x]? = some value := by
  by_cases hw : request.writeId = some x
  · cases request with
    | get key => cases hw
    | finish args => cases hw
    | putAppend op args =>
      cases hw
      rw [dispatch_known h, h]
  · rw [request_of_ne hw hf, h]

end KVServer

end DistLabs.Kvsrv
