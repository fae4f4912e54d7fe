import DistLabs.Lib.Intervals
import DistLabs.Porcupine.KvModel
import DistLabs.Porcupine.Search
import Mathlib.Data.List.Perm.Basic
import Mathlib.Data.List.Sort

/-!
# The verdict on a history of operations

A history of operations with their times is linearizable if they can be put in an order that the
model accepts, in which no operation comes before one that returned before it was called
(`Model.Linearizable`). That is what `checkSingle` finds out about the entries that `makeEntries`
makes of the history.
-/

namespace DistLabs.Porcupine

open Lib

variable {σ ι ο : Type}

/-- The model accepts the operations in this order. -/
def Model.Accepts (model : Model σ ι ο) : σ → List (Operation ι ο) → Prop
  | _, [] => True
  | s, op :: ops => (model.step s op.input op.output).1 = true ∧
      model.Accepts (model.step s op.input op.output).2 ops

/-- The operations of a history can be put in an order that the model accepts and that respects
their times. -/
def Model.Linearizable (model : Model σ ι ο) (history : List (Operation ι ο)) : Prop :=
  ∃ order, order.Perm history ∧ Orderly Operation.call Operation.ret order ∧
    model.Accepts model.init order

/-- The operations with these numbers. -/
def pick (history : List (Operation ι ο)) (ids : List Nat) : List (Operation ι ο) :=
  ids.filterMap (history[·]?)

/-- The model accepts operations of a history, given by their numbers, before all others, and some
order that begins with them respects the times. -/
def Model.Begins (model : Model σ ι ο) (history : List (Operation ι ο)) (ids : List Nat) : Prop :=
  ∃ rest, (ids ++ rest).Perm (List.range history.length) ∧
    Orderly Operation.call Operation.ret (pick history (ids ++ rest)) ∧
    model.Accepts model.init (pick history ids)

/-- `ShallowEqual` does not hold of different states. -/
theorem Model.equalOk_of_eq {model : Model σ ι ο} (h : ∀ s s', model.equal s s' = true ↔ s = s') :
    model.EqualOk := by
  intro s s' heq input output hok
  obtain rfl := (h s s').1 heq
  exact ⟨hok, (h _ _).2 rfl⟩

/-- The model compares states by equality. -/
theorem KvModel.equalOk : KvModel.EqualOk :=
  Model.equalOk_of_eq fun _ _ => beq_iff_eq

/-! ## The entries of a history -/

/-- An entry is not smaller if it is later, or at the same time and not a call before a return. -/
theorem Entry.less_eq_false {a b : Entry ι ο} : a.less b = false ↔
    b.time < a.time ∨ b.time = a.time ∧ (b.value.input?.isSome ∨ a.value.output?.isSome) := by
  rw [Entry.less]
  cases a.value <;> cases b.value <;> simp [Value.input?, Value.output?] <;> omega

theorem Entry.less_trans {a b c : Entry ι ο} (hab : b.less a = false) (hbc : c.less b = false) :
    c.less a = false := by
  rw [Entry.less_eq_false] at *
  cases ha : a.value <;> cases hb : b.value <;> cases hc : c.value <;>
    simp [ha, hb, hc, Value.input?, Value.output?] at * <;> omega

theorem Entry.less_total (a b : Entry ι ο) : b.less a = false ∨ a.less b = false := by
  rw [Entry.less_eq_false, Entry.less_eq_false]
  cases a.value <;> cases b.value <;> simp [Value.input?, Value.output?] <;> omega

/-- A way to sort entries. -/
def byTime : EntrySort ι ο where
  sort l := l.insertionSort fun a b => b.less a = false
  perm l := List.perm_insertionSort _ l
  sorted l :=
    haveI : Std.Total fun a b : Entry ι ο => b.less a = false := ⟨Entry.less_total⟩
    haveI : IsTrans (Entry ι ο) fun a b => b.less a = false := ⟨fun _ _ _ => Entry.less_trans⟩
    List.pairwise_insertionSort _ l

section
variable {s : EntrySort ι ο} {history : List (Operation ι ο)} {op op' : Operation ι ο}
  {e : Entry ι ο}
  {model : Model σ ι ο} {id id' a b j k : Nat}

/-- Every operation has a call and a return. -/
theorem mem_makeEntries : e ∈ makeEntries s history ↔ ∃ id op, history[id]? = some op ∧
    (e = ⟨.input op.input, id, op.call⟩ ∨ e = ⟨.output op.output, id, op.ret⟩) := by
  rw [makeEntries, (s.perm _).mem_iff, List.mem_flatMap]
  simp only [Prod.exists, List.mem_zipIdx_iff_getElem?, Operation.entries, List.mem_cons,
    List.not_mem_nil, or_false]
  exact exists_comm

theorem nodup_makeEntries : (makeEntries s history).Nodup := by
  rw [makeEntries, (s.perm _).nodup_iff, List.nodup_flatMap]
  have hids : history.zipIdx.Pairwise fun x y => x.2 ≠ y.2 := by
    rw [← List.pairwise_map, List.zipIdx_map_snd]
    exact List.nodup_range'
  refine ⟨fun x _ => by simp [Operation.entries], hids.imp fun {x y} hne => ?_⟩
  simp only [Function.onFun, List.disjoint_left, Operation.entries, List.mem_cons,
    List.not_mem_nil, or_false]
  rintro e (rfl | rfl) (h | h) <;> simp only [Entry.mk.injEq, reduceCtorEq, false_and] at h <;>
    exact hne h.2.1

/-- There are two entries for each operation. -/
theorem length_makeEntries : (makeEntries s history).length = 2 * history.length := by
  rw [makeEntries, (s.perm _).length_eq, List.length_flatMap]
  simp [Operation.entries, Nat.mul_comm]

/-- An entry stands at one place. -/
theorem makeEntries_place (hj : (makeEntries s history)[j]? = some e)
    (hk : (makeEntries s history)[k]? = some e) : j = k := by
  obtain ⟨hlt, hj⟩ := List.getElem?_eq_some_iff.1 hj
  obtain ⟨hlt', hk⟩ := List.getElem?_eq_some_iff.1 hk
  exact (nodup_makeEntries.getElem_inj_iff).1 (hj.trans hk.symm)

/-- What is sorted later is not less. -/
theorem not_less {e' : Entry ι ο} (hj : (makeEntries s history)[j]? = some e)
    (hk : (makeEntries s history)[k]? = some e') (hlt : j < k) : e'.less e = false := by
  obtain ⟨hlt₁, rfl⟩ := List.getElem?_eq_some_iff.1 hj
  obtain ⟨hlt₂, rfl⟩ := List.getElem?_eq_some_iff.1 hk
  exact List.pairwise_iff_getElem.1 (s.sorted _) j k hlt₁ hlt₂ hlt

/-- Where the call of an operation is. -/
theorem callAt_iff {v : ι} : CallAt (makeEntries s history) id v k ↔ ∃ op, history[id]? = some op ∧
    v = op.input ∧ (makeEntries s history)[k]? = some ⟨.input op.input, id, op.call⟩ := by
  constructor
  · rintro ⟨time, hk⟩
    obtain ⟨id', op, hop, heq | heq⟩ := mem_makeEntries.1 (List.mem_of_getElem? hk)
    · cases heq
      exact ⟨op, hop, rfl, hk⟩
    · cases heq
  · rintro ⟨op, -, rfl, hk⟩
    exact ⟨op.call, hk⟩

/-- Where the return of an operation is. -/
theorem returnAt_iff {w : ο} :
    ReturnAt (makeEntries s history) id w k ↔ ∃ op, history[id]? = some op ∧
    w = op.output ∧ (makeEntries s history)[k]? = some ⟨.output op.output, id, op.ret⟩ := by
  constructor
  · rintro ⟨time, hk⟩
    obtain ⟨id', op, hop, heq | heq⟩ := mem_makeEntries.1 (List.mem_of_getElem? hk)
    · cases heq
    · cases heq
      exact ⟨op, hop, rfl, hk⟩
  · rintro ⟨op, -, rfl, hk⟩
    exact ⟨op.ret, hk⟩

theorem exists_callAt (hop : history[id]? = some op) :
    ∃ k : Nat, (makeEntries s history)[k]? = some ⟨.input op.input, id, op.call⟩ :=
  List.getElem?_of_mem (mem_makeEntries.2 ⟨id, op, hop, .inl rfl⟩)

theorem exists_returnAt (hop : history[id]? = some op) :
    ∃ k : Nat, (makeEntries s history)[k]? = some ⟨.output op.output, id, op.ret⟩ :=
  List.getElem?_of_mem (mem_makeEntries.2 ⟨id, op, hop, .inr rfl⟩)

/-- A return stands before a call if it is earlier. -/
theorem return_before_call
    (hj : (makeEntries s history)[j]? = some ⟨.output op.output, id, op.ret⟩)
    (hk : (makeEntries s history)[k]? = some ⟨.input op'.input, id', op'.call⟩) :
    j < k ↔ op.ret < op'.call := by
  constructor
  · intro hlt
    have := not_less hj hk hlt
    simpa [Entry.less_eq_false, Value.input?, Value.output?] using this
  · intro hlt
    by_contra hle
    rcases (Nat.not_lt.1 hle).eq_or_lt with rfl | hlt'
    · rw [hj] at hk
      cases hk
    · have := Entry.less_eq_false.1 (not_less hk hj hlt')
      simp only at this
      omega

/-- The entries of a history are well formed, if no operation returns before it is called. -/
theorem wellFormed_makeEntries (htimes : ∀ op ∈ history, op.call ≤ op.ret) :
    WellFormed (makeEntries s history) history.length where
  length := length_makeEntries
  id_lt e he := by
    obtain ⟨id, op, hop, rfl | rfl⟩ :=
      mem_makeEntries.1 he <;> exact (List.getElem?_eq_some_iff.1 hop).1
  exists_call id hid := by
    have hop := List.getElem?_eq_getElem hid
    obtain ⟨k, hk⟩ := exists_callAt (s := s) hop
    exact ⟨k, _, callAt_iff.2 ⟨_, hop, rfl, hk⟩⟩
  returned k id v hcall := by
    obtain ⟨op, hop, rfl, hk⟩ := callAt_iff.1 hcall
    obtain ⟨j, hj⟩ := exists_returnAt (s := s) hop
    refine ⟨j, _, ?_, returnAt_iff.2 ⟨op, hop, rfl, hj⟩⟩
    have hle := htimes op (List.mem_of_getElem? hop)
    have hnot := mt (return_before_call hj hk).1 (by omega)
    rcases (Nat.not_lt.1 hnot).eq_or_lt with rfl | hlt
    · rw [hj] at hk
      cases hk
    · exact hlt
  called j id w hj := by
    obtain ⟨op, hop, rfl, hj⟩ := returnAt_iff.1 hj
    obtain ⟨k, hk⟩ := exists_callAt (s := s) hop
    exact ⟨k, _, callAt_iff.2 ⟨op, hop, rfl, hk⟩⟩
  call_unique j k id v w hj hk := by
    obtain ⟨op, hop, -, hj⟩ := callAt_iff.1 hj
    obtain ⟨op', hop', -, hk⟩ := callAt_iff.1 hk
    rw [hop] at hop'
    cases hop'
    exact makeEntries_place hj hk
  ret_unique j k id v w hj hk := by
    obtain ⟨op, hop, -, hj⟩ := returnAt_iff.1 hj
    obtain ⟨op', hop', -, hk⟩ := returnAt_iff.1 hk
    rw [hop] at hop'
    cases hop'
    exact makeEntries_place hj hk

/-! ## Orders of calls and orders of operations -/

/-- The node is the call of an operation of the history. -/
def IsCallOf (s : EntrySort ι ο) (history : List (Operation ι ο)) (a : Nat) (op : Operation ι ο) :
    Prop :=
  ∃ id, history[id]? = some op ∧ (makeEntries s history)[a]? = some ⟨.input op.input, id, op.call⟩

/-- One operation is called after another has returned if the call stands behind the return. -/
theorem IsCallOf.not_before (h : WellFormed (makeEntries s history) history.length)
    (ha : IsCallOf s history a op) (hb : IsCallOf s history b op') :
    (∀ m, mate (nodesOf (makeEntries s history)) b = some m →
      ¬ [m, a].Sublist (List.range (2 * history.length))) ↔ ¬ op'.ret < op.call := by
  obtain ⟨id, -, ha⟩ := ha
  obtain ⟨id', hop', hb⟩ := hb
  obtain ⟨m, hm⟩ := exists_returnAt (s := s) hop'
  have hlt : a < 2 * history.length := by
    rw [← h.length]
    exact (List.getElem?_eq_some_iff.1 ha).1
  have hmate : mate (nodesOf (makeEntries s history)) b = some m :=
    h.mate_eq_some.2 ⟨id', op'.input, op'.output, ⟨_, hb⟩, ⟨_, hm⟩⟩
  rw [hmate, ← return_before_call hm ha]
  simp only [Option.some.injEq, forall_eq', pair_sublist_range, hlt, and_true]

/-- The model executes the operation. -/
theorem IsCallOf.runCall_eq (h : WellFormed (makeEntries s history) history.length)
    (ha : IsCallOf s history a op) (st : σ) :
    runCall model (nodesOf (makeEntries s history)) st a =
      if (model.step st op.input op.output).1 then some (model.step st op.input op.output).2
      else none := by
  obtain ⟨id, hop, ha⟩ := ha
  obtain ⟨m, hm⟩ := exists_returnAt (s := s) hop
  have hcall : CallAt (makeEntries s history) id op.input a := ⟨_, ha⟩
  have hret : ReturnAt (makeEntries s history) id op.output m := ⟨_, hm⟩
  simp only [runCall, nodesOf, h.node_call hcall hret, WellFormed.node_return hret, Value.input?,
    Value.output?, Option.bind_eq_bind, Option.bind_some]

/-- An order of calls respects the entries exactly if the operations are in an order of time. -/
theorem respects_iff (h : WellFormed (makeEntries s history) history.length) {order : List Nat}
    {ops : List (Operation ι ο)} (hops : List.Forall₂ (IsCallOf s history) order ops) :
    Respects (mate (nodesOf (makeEntries s history))) (List.range (2 * history.length)) order ↔
      Orderly Operation.call Operation.ret ops := by
  induction hops with
  | nil => exact iff_of_true .nil .nil
  | @cons a op order ops hop hops ih =>
    rw [Respects, Orderly, List.pairwise_cons, List.pairwise_cons]
    refine and_congr ?_ ih
    clear ih
    induction hops with
    | nil => simp
    | cons hop' _ ih =>
      rw [List.forall_mem_cons, List.forall_mem_cons, ih, hop.not_before h hop']

/-- An order of calls can be executed exactly if the model accepts the operations. -/
theorem accepts_iff (h : WellFormed (makeEntries s history) history.length) {order : List Nat}
    {ops : List (Operation ι ο)} (hops : List.Forall₂ (IsCallOf s history) order ops) (st : σ) :
    (order.foldlM (runCall model (nodesOf (makeEntries s history))) st).isSome ↔
      model.Accepts st ops := by
  induction hops generalizing st with
  | nil => exact iff_of_true rfl trivial
  | cons hop _ ih =>
    rw [List.foldlM_cons, hop.runCall_eq h, Model.Accepts]
    split
    · next hok => exact (ih _).trans (and_iff_right hok).symm
    · next hok => exact iff_of_false (by simp) fun hacc => hok hacc.1

/-- The calls, in the order of the operations of the history. -/
theorem exists_calls (h : WellFormed (makeEntries s history) history.length) :
    ∃ calls, List.Forall₂ (IsCallOf s history) calls history ∧
      calls.map (idOf (nodesOf (makeEntries s history))) = List.range history.length ∧
      calls.Perm (callsOf (mate (nodesOf (makeEntries s history)))
        (List.range (2 * history.length))) := by
  have hplace : ∀ i : Fin history.length, ∃ k : Nat,
      (makeEntries s history)[k]? = some ⟨.input history[i].input, i, history[i].call⟩ := fun i =>
    exists_callAt (List.getElem?_eq_getElem i.2)
  choose place hplace using hplace
  refine ⟨List.ofFn place, ?_, ?_, ?_⟩
  · refine List.forall₂_iff_get.2 ⟨List.length_ofFn, fun i hi hi' => ?_⟩
    rw [List.get_ofFn]
    exact ⟨i, List.getElem?_eq_getElem hi', hplace ⟨i, hi'⟩⟩
  · refine List.ext_getElem (by simp) fun i hi hi' => ?_
    rw [List.getElem_map, List.getElem_ofFn, List.getElem_range]
    exact h.idOf_call ⟨_, hplace ⟨i, by simpa using hi'⟩⟩
  · have hinj : Function.Injective place := by
      intro i j hij
      have := (hplace i).symm.trans (hij ▸ hplace j)
      exact Fin.ext (congrArg Entry.id (Option.some.inj this))
    have hnodup : (callsOf (mate (nodesOf (makeEntries s history)))
        (List.range (2 * history.length))).Nodup := List.nodup_range.filter _
    refine (List.perm_ext_iff_of_nodup (List.nodup_ofFn.2 hinj) hnodup).2 fun a => ?_
    rw [List.mem_ofFn, mem_callsOf, Option.isSome_iff_exists]
    constructor
    · rintro ⟨i, rfl⟩
      obtain ⟨m, w, -, hm⟩ := h.returned _ _ _ ⟨_, hplace i⟩
      have hmate := h.mate_eq_some.2 ⟨_, _, w, ⟨_, hplace i⟩, hm⟩
      have := h.mate_lt hmate
      exact ⟨List.mem_range.2 (by omega), m, hmate⟩
    · rintro ⟨-, m, hm⟩
      obtain ⟨id, v, w, hcall, -⟩ := h.mate_eq_some.1 hm
      obtain ⟨op, hop, -, ha⟩ := callAt_iff.1 hcall
      obtain ⟨hid, rfl⟩ := List.getElem?_eq_some_iff.1 hop
      exact ⟨⟨id, hid⟩, makeEntries_place (hplace ⟨id, hid⟩) ha⟩

/-- All calls can be taken if the history is linearizable. -/
theorem completes_iff (h : WellFormed (makeEntries s history) history.length) :
    Completes model (nodesOf (makeEntries s history))
      (List.range (2 * history.length)) model.init ↔
      model.Linearizable history := by
  obtain ⟨calls, hcalls, -, hperm⟩ := exists_calls h
  simp only [Completes, nodesOf, takes_iff h.paired]
  constructor
  · rintro ⟨order, horder, hrespects, hsome⟩
    obtain ⟨ops, hops, hperm'⟩ := List.perm_comp_forall₂ (horder.trans hperm.symm) hcalls
    exact ⟨ops, hperm', (respects_iff h hops).1 hrespects, (accepts_iff h hops _).1 hsome⟩
  · rintro ⟨ops, hops, hrespects, haccepts⟩
    obtain ⟨order, horder, hperm'⟩ := List.perm_comp_forall₂ hops hcalls.flip
    exact ⟨order, hperm'.trans hperm, (respects_iff h horder.flip).2 hrespects,
      (accepts_iff h horder.flip _).2 haccepts⟩

/-- The numbers of the calls are the numbers of the operations. -/
theorem pick_eq (h : WellFormed (makeEntries s history) history.length) {order : List Nat}
    {ops : List (Operation ι ο)} (hops : List.Forall₂ (IsCallOf s history) order ops) :
    pick history (order.map (idOf (nodesOf (makeEntries s history)))) = ops := by
  induction hops with
  | nil => rfl
  | cons hop _ ih =>
    obtain ⟨id, hop, ha⟩ := hop
    rw [List.map_cons, nodesOf, h.idOf_call ⟨_, ha⟩, pick, List.filterMap_cons, hop]
    exact congrArg (_ :: ·) ih

/-- What the search reports is the beginning of an order. -/
theorem begins_of_isPartial (h : WellFormed (makeEntries s history) history.length)
    {ids : List Nat}
    (hids : IsPartial model (makeEntries s history) ids) : model.Begins history ids := by
  obtain ⟨calls, hcalls, hrange, hperm⟩ := exists_calls h
  obtain ⟨order, left, t, htakes, rfl⟩ := hids
  rw [h.length] at htakes
  obtain ⟨horder, hrespects, hfold⟩ := htakes.respects h.paired
  obtain ⟨ops, hops, -⟩ := List.perm_comp_forall₂ (horder.trans hperm.symm) hcalls
  refine ⟨(callsOf (mate (nodesOf (makeEntries s history))) left).map
    (idOf (nodesOf (makeEntries s history))), ?_, ?_, ?_⟩
  · rw [← List.map_append, ← hrange]
    exact (horder.trans hperm.symm).map _
  · rw [← List.map_append, nodesOf, pick_eq h hops]
    exact (respects_iff h hops).1 hrespects
  · have hbegin := List.forall₂_take order.length hops
    rw [List.take_left] at hbegin
    rw [nodesOf, pick_eq h hbegin]
    exact (accepts_iff h hbegin _).1 (by rw [nodesOf, hfold]; rfl)

/-- `checkSingle` returns, and returns true if the history is linearizable. What it reports for an
operation are operations, with this one, that a linearization can begin with. -/
theorem checkSingle_iff (htimes : ∀ op ∈ history, op.call ≤ op.ret) (hequal : model.EqualOk)
    (computePartial : Bool) {fuel : Nat}
    (hfuel : (2 * history.length + 2) ^ (history.length + 1) ≤ fuel) :
    ∃ ok longest,
      checkSingle model (makeEntries s history) computePartial fuel = some (ok, longest) ∧
      (ok = true ↔ model.Linearizable history) ∧ longest.length = history.length ∧
      ∀ id ids, longest[id]? = some (some ids) → id ∈ ids ∧ model.Begins history ids := by
  have h : WellFormed (makeEntries s history) history.length := wellFormed_makeEntries htimes
  obtain ⟨ok, longest, hcheck, hiff, hlength, hlongest⟩ :=
    exists_checkSingle h hequal computePartial hfuel
  rw [h.length, completes_iff h] at hiff
  refine ⟨ok, longest, hcheck, hiff, hlength, fun id ids hids => ?_⟩
  obtain ⟨hmem, hpartial⟩ := hlongest id ids hids
  exact ⟨hmem, begins_of_isPartial h hpartial⟩

end

/-- A value is written, and read before the write returns. -/
def writeWhileRead : List (Operation KvInput KvOutput) :=
  [⟨⟨1, [107], [118]⟩, 0, ⟨[]⟩, 10⟩, ⟨⟨0, [107], []⟩, 3, ⟨[118]⟩, 5⟩]

/-- A value is written while it is read. -/
theorem checkSingle_iff_writeWhileRead :
    ∃ ok longest, checkSingle KvModel (makeEntries byTime writeWhileRead) true 216 =
      some (ok, longest) ∧
      (ok = true ↔ KvModel.Linearizable writeWhileRead) ∧ longest.length = 2 ∧
      ∀ id ids, longest[id]? = some (some ids) → id ∈ ids ∧ KvModel.Begins writeWhileRead ids :=
  checkSingle_iff (by decide) KvModel.equalOk true (by decide)

end DistLabs.Porcupine
