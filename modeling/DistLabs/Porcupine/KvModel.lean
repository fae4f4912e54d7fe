import DistLabs.Porcupine.Checker

/-!
# The model of a key/value store

`KvModel` of `models/kv.go`, with which the tests check the histories of the key/value services. It
is a model of the value of one key; `Partition` splits a history by keys.
-/

namespace DistLabs.Porcupine

open Lib

/-- `KvInput`. -/
structure KvInput where
  /-- `Op`: 0 => get, 1 => put, 2 => append; all others are appends that return the old value. -/
  op : UInt8
  key : GoString
  value : GoString := []
  deriving DecidableEq

/-- `KvOutput`. -/
structure KvOutput where
  value : GoString := []
  deriving DecidableEq

namespace KvModel

/-- The map `m` of `Partition`: the operations on every key. -/
def group (history : List (Operation KvInput KvOutput)) :
    GoMap GoString (List (Operation KvInput KvOutput)) :=
  history.foldl (fun m v => m.insert v.input.key (m[v.input.key]?.getD [] ++ [v])) ∅

/-- `Partition`; the keys are in increasing order, as `sort.Strings` leaves them. -/
def partition (history : List (Operation KvInput KvOutput)) :
    List (List (Operation KvInput KvOutput)) :=
  (group history).keys.map fun k => (group history)[k]?.getD []

/-- `Step`. -/
def step (st : GoString) (inp : KvInput) (out : KvOutput) : Bool × GoString :=
  if inp.op = 0 then (out.value == st, st)
  else if inp.op = 1 then (true, inp.value)
  else if inp.op = 2 then (true, st ++ inp.value)
  else (out.value == st, st ++ inp.value)

end KvModel

/-- `KvModel`. It has no `Equal`, so that is `ShallowEqual`. -/
def KvModel : Model GoString KvInput KvOutput where
  partition := KvModel.partition
  init := []
  step := KvModel.step
  equal st st' := st == st'

namespace KvModel

section
variable {history : List (Operation KvInput KvOutput)} {k : GoString}

/-- A key has its operations, in their order. -/
theorem getElem?_group : (group history)[k]? =
    if history.filter (·.input.key = k) =
      [] then none else some (history.filter (·.input.key = k)) := by
  suffices h : ∀ m : GoMap GoString (List (Operation KvInput KvOutput)),
      (history.foldl (fun m v => m.insert v.input.key (m[v.input.key]?.getD [] ++ [v])) m)[k]? =
        if history.filter (·.input.key = k) = [] then m[k]?
        else some (m[k]?.getD [] ++ history.filter (·.input.key = k)) by
    rw [group, h, Std.ExtTreeMap.getElem?_empty]
    rfl
  intro m
  induction history generalizing m with
  | nil => rfl
  | cons v history ih =>
    rw [List.foldl_cons, ih, GoMap.getElem?_insert, List.filter_cons]
    by_cases hk : k = v.input.key
    · subst hk
      simp only [if_true, decide_true, Option.getD_some, List.append_assoc, List.singleton_append,
        List.cons_ne_nil, if_false]
      split
      · next hnil => rw [hnil]
      · rfl
    · simp only [hk, if_false, decide_eq_true_eq, Ne.symm hk]

/-- The keys of the operations. -/
theorem mem_keys_group : k ∈ (group history).keys ↔ ∃ op ∈ history, op.input.key = k := by
  rw [Std.ExtTreeMap.mem_keys, Std.ExtTreeMap.mem_iff_isSome_getElem?, getElem?_group]
  split
  · next hnil => simpa [List.filter_eq_nil_iff] using hnil
  · next hne => simpa [List.filter_eq_nil_iff] using hne

/-- The history is split into the operations on each key. -/
theorem partition_eq : partition history =
    (group history).keys.map fun k => history.filter (·.input.key = k) := by
  refine List.map_congr_left fun k hk => ?_
  rw [getElem?_group]
  split
  · next hnil => rw [hnil]; rfl
  · rfl

end

end KvModel

end DistLabs.Porcupine
