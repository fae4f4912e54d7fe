import DistLabs.Kvraft.Applier
import DistLabs.Lib.Copies

/-!
# Every write is executed once

The log of kvraft may have any number of copies of an operation. The filter of `execute` is the
largest request id of the client, and a `Get` passes it but changes that id. As long as the first
copies of a client's operations come in the order of their ids, the database is that of the first
copies of `Put` and `Append` (`execute_once`).
-/

namespace DistLabs.Kvraft

open Lib

/-- What identifies an operation. -/
def Op.id (op : Op) : Int × Int := (op.clientId, op.requestId)

/-- What a write does to an ordinary map. -/
def Op.write (m : GoMap GoString GoString) (op : Op) : GoMap GoString GoString :=
  match op.opType with
  | .get => m
  | .put => m.insert op.key op.value
  | .append => m.insert op.key (m[op.key]?.getD [] ++ op.value)

/-- The ordinary map after the first copies of the writes of a log. -/
def ordinaryMap (log : List Op) : GoMap GoString GoString :=
  ((firstCopies Op.id log).filter (·.opType ≠ .get)).foldl Op.write ∅

variable {log : List Op} {kv : Store} {op : Op}

/-- An operation that is not known is performed. -/
theorem apply_kvdb (h : ¬ kv.isInvalidRequest op.clientId op.requestId) :
    (kv.apply op).kvdb = op.write kv.kvdb := by
  rw [Store.apply, execute_eq fun hskip => h hskip.2, updateLastRequest_eq]
  unfold Store.perform Op.write
  cases op.opType <;> rfl

/-- Executing a log makes the table of its requests. -/
theorem foldl_lastRequestMap (log : List Op) :
    (log.foldl Store.apply .empty).lastRequestMap = requestTable (log.map Op.id) := by
  induction log using List.reverseRecOn with
  | nil => rfl
  | append_singleton log op ih =>
    rw [List.foldl_append, List.map_append, List.map_singleton, requestTable_concat, ← ih]
    exact apply_lastRequestMap _ op

/-- An operation at the end of a log counts only if it is not a copy. -/
theorem ordinaryMap_concat (log : List Op) (op : Op) : ordinaryMap (log ++ [op]) =
    if op.id ∈ log.map Op.id then ordinaryMap log else op.write (ordinaryMap log) := by
  unfold ordinaryMap
  rw [firstCopies_concat]
  split
  · rfl
  rw [List.filter_append, List.foldl_append]
  by_cases hget : op.opType = .get
  · simp [hget, Op.write]
  · simp [hget]

/-- Executing a log with copies makes the map of the log without them, if the first copies of each
client are in order. -/
theorem foldl_kvdb (h : FirstsInOrder Op.id log) :
    (log.foldl Store.apply .empty).kvdb = ordinaryMap log := by
  induction log using List.reverseRecOn with
  | nil => rfl
  | append_singleton log op ih =>
    have hknown : (log.foldl Store.apply .empty).isInvalidRequest op.clientId op.requestId ↔
        op.id ∈ log.map Op.id := by
      rw [Store.isInvalidRequest, foldl_lastRequestMap]
      exact known_iff h
    rw [List.foldl_append, ordinaryMap_concat, ← ih h.of_concat]
    change ((log.foldl Store.apply .empty).apply op).kvdb = _
    split
    · next hop => rw [apply_of_known (hknown.2 hop)]
    · next hop => exact apply_kvdb fun hinv => hop (hknown.1 hinv)

/-- **Every write is executed once**, and every `Get` reads what the writes before it have left. -/
theorem execute_once (log : List Op) (h : FirstsInOrder Op.id log) :
    (log.foldl Store.apply .empty).kvdb = ordinaryMap log ∧
      (∀ c, (log.foldl Store.apply .empty).lastRequestMap[c]? =
        ((log.filter (·.clientId = c)).map Op.requestId).max?) ∧
      ∀ p op, log[p]? = some op → op.opType = .get →
        (((log.take p).foldl Store.apply .empty).execute op).2 =
          { op with value := (ordinaryMap (log.take p))[op.key]?.getD [] } := by
  refine ⟨foldl_kvdb h, fun c => ?_, fun p op _ hget => ?_⟩
  · rw [foldl_lastRequestMap, getElem?_requestTable, List.filter_map, List.map_map]
    rfl
  · have hp : FirstsInOrder Op.id (log.take p) := by
      rw [← List.take_append_drop p log] at h
      exact h.of_append
    rw [execute_get hget, foldl_kvdb hp]

/-- Two clients, with copies of a write before and after the `Get` that follows it. -/
def copiedLog : List Op :=
  [⟨1, 0, .append, [0], [1]⟩, ⟨2, 0, .put, [0], [2]⟩, ⟨1, 0, .append, [0], [1]⟩,
    ⟨1, 1, .get, [0], []⟩, ⟨1, 0, .append, [0], [1]⟩, ⟨2, 0, .put, [0], [2]⟩,
    ⟨1, 2, .append, [0], [3]⟩]

/-- Of every operation one copy is executed. -/
theorem execute_once_copiedLog : Successive Op.id copiedLog ∧
    ((copiedLog.foldl Store.apply .empty).kvdb = ordinaryMap copiedLog ∧
      (∀ c, (copiedLog.foldl Store.apply .empty).lastRequestMap[c]? =
        ((copiedLog.filter (·.clientId = c)).map Op.requestId).max?) ∧
      ∀ p op, copiedLog[p]? = some op → op.opType = .get →
        (((copiedLog.take p).foldl Store.apply .empty).execute op).2 =
          { op with value := (ordinaryMap (copiedLog.take p))[op.key]?.getD [] }) :=
  have h : Successive Op.id copiedLog := by decide
  ⟨h, execute_once copiedLog h.inOrder⟩

end DistLabs.Kvraft
