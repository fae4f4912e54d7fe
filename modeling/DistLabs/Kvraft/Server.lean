import DistLabs.Lib.Go

/-!
# The state machine of `kvraft/server.go`

`execute` applies one committed operation to the database and the table of requests. `DPrintf` is
left out.
-/

namespace DistLabs.Kvraft

open Lib

/-- The values of `OpType`. -/
inductive OpType where
  | get
  | put
  | append
  deriving DecidableEq, Repr

/-- `Op`. -/
structure Op where
  clientId : Int
  requestId : Int
  opType : OpType
  key : GoString
  value : GoString := []
  deriving DecidableEq

/-- The fields of `KVServer` that `execute` works on and `encodeState` saves. -/
structure Store where
  kvdb : GoMap GoString GoString
  lastRequestMap : GoMap Int Int
  deriving DecidableEq

namespace Store

/-- No keys and no requests. -/
def empty : Store := ⟨∅, ∅⟩

variable (kv : Store)

/-- `isInvalidRequest`. -/
def isInvalidRequest (clientId requestId : Int) : Prop :=
  ∃ lastRequestId ∈ kv.lastRequestMap[clientId]?, requestId ≤ lastRequestId

instance (clientId requestId : Int) : Decidable (kv.isInvalidRequest clientId requestId) :=
  inferInstanceAs (Decidable (∃ lastRequestId ∈ kv.lastRequestMap[clientId]?,
    requestId ≤ lastRequestId))

/-- `UpdateLastRequest`. -/
def updateLastRequest (op : Op) : Store :=
  match kv.lastRequestMap[op.clientId]? with
  | some lastRequestId =>
    if lastRequestId < op.requestId then
      { kv with lastRequestMap := kv.lastRequestMap.insert op.clientId op.requestId }
    else kv
  | none => { kv with lastRequestMap := kv.lastRequestMap.insert op.clientId op.requestId }

/-- The body of the `switch` of `execute`. -/
def perform (op : Op) : Store × Op :=
  match op.opType with
  | .get => (kv, { op with value := kv.kvdb[op.key]?.getD [] })
  | .put => ({ kv with kvdb := kv.kvdb.insert op.key op.value }, op)
  | .append =>
    ({ kv with kvdb := kv.kvdb.insert op.key (kv.kvdb[op.key]?.getD [] ++ op.value) }, op)

/-- `execute`: the new state, and the operation, into which a `Get` writes the value. -/
def execute (op : Op) : Store × Op :=
  if op.opType ≠ .get ∧ kv.isInvalidRequest op.clientId op.requestId then (kv, op)
  else
    let (kv', op') := kv.perform op
    (kv'.updateLastRequest op', op')

/-- What an operation does to the state. -/
def apply (op : Op) : Store := (kv.execute op).1

end Store

end DistLabs.Kvraft
