import DistLabs.Lib.CallOrder
import DistLabs.Porcupine.Checker

/-!
# The list of entries

In a history every operation has a call and, later, a return (`WellFormed`). `makeLinkedEntries`
links the entries in their order, and every call with its return, so that the addresses of the
nodes are a list of calls and returns (`WellFormed.paired`).
-/

namespace DistLabs.Porcupine

open Lib

variable {σ ι ο : Type}

/-- Entry number `k` is the call of operation `id`. -/
def CallAt (entries : List (Entry ι ο)) (id : Nat) (v : ι) (k : Nat) : Prop :=
  ∃ time, entries[k]? = some ⟨.input v, id, time⟩

/-- Entry number `k` is the return of operation `id`. -/
def ReturnAt (entries : List (Entry ι ο)) (id : Nat) (w : ο) (k : Nat) : Prop :=
  ∃ time, entries[k]? = some ⟨.output w, id, time⟩

/-- There are `n` operations, each with one call and one return, which is later. -/
structure WellFormed (entries : List (Entry ι ο)) (n : Nat) : Prop where
  length : entries.length = 2 * n
  id_lt : ∀ e ∈ entries, e.id < n
  exists_call : ∀ id < n, ∃ k v, CallAt entries id v k
  returned : ∀ k id v, CallAt entries id v k → ∃ j w, k < j ∧ ReturnAt entries id w j
  called : ∀ j id w, ReturnAt entries id w j → ∃ k v, CallAt entries id v k
  call_unique : ∀ j k id v w, CallAt entries id v j → CallAt entries id w k → j = k
  ret_unique : ∀ j k id v w, ReturnAt entries id v j → ReturnAt entries id w k → j = k

/-! ## Links -/

section
variable {links : Links} {i n : Nat} {entries : List (Entry ι ο)}

/-- A node is put before the first one. -/
theorem insertBefore_linked {l : List Nat} (h : links.Linked l) (hn : n ∉ l)
    (hprev : ∀ a ∈ l.head?, links.prev a = none) (hnodup : l.Nodup) (hnext : links.next n = none) :
    (insertBefore links n l.head?).Linked (n :: l) := by
  cases l with
  | nil => exact hnext
  | cons a l =>
    simp only [List.head?_cons, insertBefore, hprev a rfl]
    refine ⟨Function.update_self .., Function.update_self .., ?_⟩
    refine h.congr (fun b hb => Function.update_of_ne ?_ ..) fun b hb =>
      Function.update_of_ne ?_ ..
    · rintro rfl
      exact hn hb
    · rintro rfl
      exact (List.nodup_cons.1 hnodup).1 hb

/-- `insertBefore` changes no other pointers, if nothing was before. -/
theorem insertBefore_next {mark : Option Nat} {a : Nat} (hprev : ∀ b ∈ mark, links.prev b = none)
    (ha : a ≠ n) : (insertBefore links n mark).next a = links.next a := by
  cases mark with
  | none => rfl
  | some b =>
    simp only [insertBefore, hprev b rfl]
    exact Function.update_of_ne ha ..

/-- Inserting a node changes one `prev` only. -/
theorem insertBefore_prev {mark : Option Nat} {a : Nat} (hprev : ∀ b ∈ mark, links.prev b = none)
    (ha : a ∉ mark) : (insertBefore links n mark).prev a = links.prev a := by
  cases mark with
  | none => rfl
  | some b =>
    simp only [insertBefore, hprev b rfl]
    refine Function.update_of_ne ?_ ..
    rintro rfl
    exact ha rfl

/-- The list starts with the first entry. -/
theorem linkEntries_root (i : Nat) (entries : List (Entry ι ο)) :
    (linkEntries i entries).root = (List.range' i entries.length).head? := by
  cases entries with
  | nil => rfl
  | cons e entries =>
    rw [linkEntries]
    split <;> rfl

/-- The entries are linked in their order. -/
theorem linkEntries_linked (i : Nat) (entries : List (Entry ι ο)) :
    (linkEntries i entries).links.Linked (List.range' i entries.length) ∧
      (∀ a ≤ i, (linkEntries i entries).links.prev a = none) ∧
      ∀ a, a < i ∨ i + entries.length ≤ a → (linkEntries i entries).links.next a = none := by
  induction entries generalizing i with
  | nil => exact ⟨trivial, fun _ _ => rfl, fun _ _ => rfl⟩
  | cons e entries ih =>
    obtain ⟨hlinked, hprev, hnext⟩ := ih (i + 1)
    have hlinks :
      (linkEntries i (e :: entries)).links = insertBefore (linkEntries (i + 1) entries).links i
        (List.range' (i + 1) entries.length).head? := by
      rw [← linkEntries_root, linkEntries]
      split <;> rfl
    have hhead : ∀ a ∈ (List.range' (i + 1) entries.length).head?, a = i + 1 := by
      intro a ha
      rw [List.head?_range'] at ha
      split at ha <;> cases ha
      rfl
    have hfirst : ∀ a ∈ (List.range' (i + 1) entries.length).head?,
        (linkEntries (i + 1) entries).links.prev a = none := fun a ha => hprev a (hhead a ha).le
    rw [hlinks, List.length_cons, List.range'_succ]
    refine ⟨?_, fun a ha => ?_, fun a ha => ?_⟩
    · refine insertBefore_linked hlinked (fun hmem => ?_) hfirst List.nodup_range'
        (hnext i (.inl (by omega)))
      have := (List.mem_range'_1.1 hmem).1
      omega
    · rw [insertBefore_prev hfirst fun hmem => ?_]
      · exact hprev a (by omega)
      · have := hhead a hmem
        omega
    · rw [insertBefore_next hfirst (by omega)]
      exact hnext a (by omega)

/-- The list that the search starts with. -/
theorem start_linked (model : Model σ ι ο) (entries : List (Entry ι ο)) :
    (Search.start model entries).links.Linked (entries.length :: List.range entries.length) := by
  obtain ⟨hlinked, hprev, hnext⟩ := linkEntries_linked 0 entries
  have hroot := linkEntries_root 0 entries
  simp only [Search.start, makeLinkedEntries, hroot, List.range_eq_range']
  refine insertBefore_linked hlinked (fun hmem => ?_) (fun a ha => hprev a ?_) List.nodup_range'
    (hnext _ (.inr (by omega)))
  · have := (List.mem_range'_1.1 hmem).2
    omega
  · rw [List.head?_range'] at ha
    split at ha <;> cases ha
    rfl

/-- The loop counts the nodes of a list. -/
theorem length_eq {l : List Nat} {a fuel : Nat} (h : links.Linked (a :: l))
    (hfuel : l.length < fuel) :
    length links fuel (some a) = l.length + 1 := by
  induction l generalizing a fuel with
  | nil =>
    obtain ⟨fuel, rfl⟩ := Nat.exists_eq_succ_of_ne_zero (by omega : fuel ≠ 0)
    rw [length, h.next_eq, List.head?_nil, length]
    rfl
  | cons b l ih =>
    obtain ⟨fuel, rfl⟩ := Nat.exists_eq_succ_of_ne_zero (by omega : fuel ≠ 0)
    rw [length, h.next_eq, List.head?_cons, ih h.tail (by simpa using hfuel), List.length_cons]

/-- The number of operations. -/
theorem start_length (entries : List (Entry ι ο)) :
    length (makeLinkedEntries entries).links entries.length (makeLinkedEntries entries).root =
      entries.length := by
  have hlinked := (linkEntries_linked 0 entries).1
  rw [makeLinkedEntries, linkEntries_root]
  cases entries with
  | nil => rfl
  | cons e entries =>
    rw [List.length_cons, List.range'_succ] at hlinked ⊢
    rw [List.head?_cons, length_eq hlinked (by simp), List.length_range']

/-! ## Nodes -/

/-- An entry is the return of operation `id`. -/
def Entry.isReturnOf (id : Nat) (e : Entry ι ο) : Bool := e.value.output?.isSome && e.id = id

/-- The map `match` has the first return of every operation. -/
theorem linkEntries_returns (i id : Nat) (entries : List (Entry ι ο)) :
    (linkEntries i entries).returns[id]? =
      (entries.findIdx? (Entry.isReturnOf id)).map (i + ·) := by
  induction entries generalizing i with
  | nil => rfl
  | cons e entries ih =>
    have hlater : (linkEntries (i + 1) entries).returns[id]? =
        ((entries.findIdx? (Entry.isReturnOf id)).map (· + 1)).map (i + ·) := by
      rw [ih, Option.map_map]
      congr 1
      funext j
      simp only [Function.comp_apply]
      omega
    rw [linkEntries, List.findIdx?_cons]
    split
    · next w hvalue =>
      rw [GoMap.getElem?_insert, hlater]
      simp only [Entry.isReturnOf, hvalue, Value.output?, Option.isSome_some, Bool.true_and,
        decide_eq_true_eq, eq_comm (a := id)]
      split <;> rfl
    · next v hvalue =>
      rw [hlater]
      simp only [Entry.isReturnOf, hvalue, Value.output?, Option.isSome_none, Bool.false_and,
        Bool.false_eq_true, if_false]

/-- The node of an entry; a call is linked with the next return of its operation. -/
theorem linkEntries_nodes (i k : Nat) (entries : List (Entry ι ο)) {e : Entry ι ο}
    (h : entries[k]? = some e) :
    (linkEntries i entries).nodes[k]? = some ⟨e.value,
      if e.value.input?.isSome then
        ((entries.drop (k + 1)).findIdx? (Entry.isReturnOf e.id)).map (i + (k + 1) + ·)
      else none, e.id⟩ := by
  induction entries generalizing i k with
  | nil => cases h
  | cons e' entries ih =>
    cases k with
    | zero =>
      cases h
      rw [linkEntries]
      split
      · next w hvalue => simp [hvalue, Value.input?]
      · next v hvalue => simp [hvalue, Value.input?, linkEntries_returns]
    | succ k =>
      have hrest := ih (i + 1) k h
      rw [linkEntries, List.drop_succ_cons,
        show i + (k + 1 + 1) = i + 1 + (k + 1) by omega, ← hrest]
      split <;> rfl

theorem linkEntries_nodes_length (i : Nat) (entries : List (Entry ι ο)) :
    (linkEntries i entries).nodes.length = entries.length := by
  induction entries generalizing i with
  | nil => rfl
  | cons e entries ih =>
    rw [linkEntries]
    split <;> exact congrArg (· + 1) (ih (i + 1))

end

/-! ## Calls and returns -/

/-- The return of a call. -/
def mate (nodes : List (Node ι ο)) (a : Nat) : Option Nat := nodes[a]?.bind Node.matching

/-- The operation of a node. -/
def idOf (nodes : List (Node ι ο)) (a : Nat) : Nat := (nodes[a]?.map Node.id).getD 0

section
variable {entries : List (Entry ι ο)} {n : Nat} {id a c j k m : Nat} {v : ι} {w : ο}

/-- An entry is a call or a return. -/
theorem callAt_or_returnAt (hk : k < entries.length) :
    ∃ id, id = entries[k].id ∧ ((∃ v, CallAt entries id v k) ∨ ∃ w, ReturnAt entries id w k) := by
  refine ⟨_, rfl, ?_⟩
  have hget := List.getElem?_eq_getElem hk
  cases hvalue : entries[k].value with
  | input v => exact .inl ⟨v, entries[k].time, by rw [hget, ← hvalue]⟩
  | output w => exact .inr ⟨w, entries[k].time, by rw [hget, ← hvalue]⟩

namespace WellFormed

variable (h : WellFormed entries n)
include h

/-- The node of a call has that of its return as `match`. -/
theorem node_call (hk : CallAt entries id v k) (hj : ReturnAt entries id w j) :
    (makeLinkedEntries entries).nodes[k]? = some ⟨.input v, some j, id⟩ := by
  obtain ⟨j', w', hlt, hj'⟩ := h.returned k id v hk
  obtain rfl := h.ret_unique _ _ _ _ _ hj hj'
  obtain ⟨time, hk⟩ := hk
  obtain ⟨time', hj'⟩ := hj'
  rw [makeLinkedEntries, linkEntries_nodes 0 k entries hk]
  -- the first return of the operation behind the call is the only one
  have hmem : (⟨.output w', id, time'⟩ : Entry ι ο) ∈ entries.drop (k + 1) := by
    refine List.mem_of_getElem? (i := j - (k + 1)) ?_
    rw [List.getElem?_drop, show k + 1 + (j - (k + 1)) = j by omega, hj']
  obtain ⟨x, hx⟩ : ∃ x, (entries.drop (k + 1)).findIdx? (Entry.isReturnOf id) = some x := by
    rw [← Option.isSome_iff_exists, List.findIdx?_isSome, List.any_eq_true]
    exact ⟨_, hmem, by simp [Entry.isReturnOf, Value.output?]⟩
  obtain ⟨hlen, hfound, -⟩ := List.findIdx?_eq_some_iff_getElem.1 hx
  have hat : ∃ u, ReturnAt entries id u (k + 1 + x) := by
    have hget : entries[k + 1 + x]? = some (entries.drop (k + 1))[x] := by
      rw [← List.getElem?_drop, List.getElem?_eq_getElem hlen]
    generalize (entries.drop (k + 1))[x] = e at hget hfound
    obtain ⟨value, id', time''⟩ := e
    cases value with
    | input u => cases hfound
    | output u =>
      have hid : id' = id := by simpa [Entry.isReturnOf, Value.output?] using hfound
      exact ⟨u, time'', by rw [hget, hid]⟩
  obtain ⟨u, hu⟩ := hat
  rw [h.ret_unique _ _ _ _ _ hj hu]
  simp [Value.input?, hx]

omit h in
/-- The node of a return has no `match`. -/
theorem node_return (hj : ReturnAt entries id w j) :
    (makeLinkedEntries entries).nodes[j]? = some ⟨.output w, none, id⟩ := by
  obtain ⟨time, hj⟩ := hj
  rw [makeLinkedEntries, linkEntries_nodes 0 j entries hj]
  rfl

omit h in
theorem mate_return (hj : ReturnAt entries id w j) :
    mate (makeLinkedEntries entries).nodes j = none := by
  rw [mate, node_return hj]
  rfl

/-- The calls and returns are linked with each other. -/
theorem mate_eq_some : mate (makeLinkedEntries entries).nodes a = some m ↔
    ∃ id v w, CallAt entries id v a ∧ ReturnAt entries id w m := by
  constructor
  · intro ha
    have hlt : a < entries.length := by
      obtain ⟨node, hnode, -⟩ := Option.bind_eq_some_iff.1 ha
      rw [← linkEntries_nodes_length 0 entries]
      exact (List.getElem?_eq_some_iff.1 hnode).1
    obtain ⟨id, -, ⟨v, hv⟩ | ⟨w, hw⟩⟩ := callAt_or_returnAt hlt
    · obtain ⟨j, w, -, hj⟩ := h.returned a id v hv
      rw [mate, h.node_call hv hj] at ha
      cases ha
      exact ⟨id, v, w, hv, hj⟩
    · rw [mate_return hw] at ha
      cases ha
  · rintro ⟨id, v, w, ha, hm⟩
    rw [mate, h.node_call ha hm]
    rfl

/-- The return of a call comes later. -/
theorem mate_lt (ha : mate (makeLinkedEntries entries).nodes a = some m) : a < m ∧ m < 2 * n := by
  obtain ⟨id, v, w, ha, hm⟩ := h.mate_eq_some.1 ha
  obtain ⟨m', w', hlt, hm'⟩ := h.returned a id v ha
  obtain rfl := h.ret_unique _ _ _ _ _ hm hm'
  obtain ⟨time, hm⟩ := hm
  exact ⟨hlt, h.length ▸ (List.getElem?_eq_some_iff.1 hm).1⟩

/-- The addresses are a list of calls and returns. -/
theorem paired : Paired (mate (makeLinkedEntries entries).nodes) (List.range (2 * n)) where
  nodup := List.nodup_range
  later a m _ ha := pair_sublist_range.2 (h.mate_lt ha)
  ret a m _ ha := by
    obtain ⟨id, v, w, -, hm⟩ := h.mate_eq_some.1 ha
    exact mate_return hm
  inj a b m _ _ ha hb := by
    obtain ⟨id, v, w, ha, time, hm⟩ := h.mate_eq_some.1 ha
    obtain ⟨id', v', w', hb, time', hm'⟩ := h.mate_eq_some.1 hb
    rw [hm] at hm'
    cases hm'
    exact h.call_unique _ _ _ _ _ ha hb
  called m hm hnone := by
    rw [List.mem_range, ← h.length] at hm
    obtain ⟨id, -, ⟨v, hv⟩ | ⟨w, hw⟩⟩ := callAt_or_returnAt hm
    · obtain ⟨j, w, -, hj⟩ := h.returned m id v hv
      rw [h.mate_eq_some.2 ⟨id, v, w, hv, hj⟩] at hnone
      cases hnone
    · obtain ⟨k, v, hk⟩ := h.called m id w hw
      have hmate := h.mate_eq_some.2 ⟨id, v, w, hk, hw⟩
      have := h.mate_lt hmate
      exact ⟨k, List.mem_range.2 (by omega), hmate⟩

theorem idOf_call (ha : CallAt entries id v a) :
    idOf (makeLinkedEntries entries).nodes a = id := by
  obtain ⟨j, w, -, hj⟩ := h.returned a id v ha
  rw [idOf, h.node_call ha hj]
  rfl

omit h in
theorem idOf_return (ha : ReturnAt entries id w a) :
    idOf (makeLinkedEntries entries).nodes a = id := by
  rw [idOf, node_return ha]
  rfl

/-- Operations are numbered from 0 on. -/
theorem idOf_lt (ha : a < 2 * n) : idOf (makeLinkedEntries entries).nodes a < n := by
  rw [← h.length] at ha
  obtain ⟨id, hid, ⟨v, hv⟩ | ⟨w, hw⟩⟩ := callAt_or_returnAt ha
  · rw [h.idOf_call hv, hid]
    exact h.id_lt _ (List.getElem_mem ha)
  · rw [idOf_return hw, hid]
    exact h.id_lt _ (List.getElem_mem ha)

/-- An operation has no other nodes than its call and its return. -/
theorem idOf_eq_iff (ha : mate (makeLinkedEntries entries).nodes a = some m) (hc : c < 2 * n) :
    idOf (makeLinkedEntries entries).nodes c = idOf (makeLinkedEntries entries).nodes a ↔
      c = a ∨ c = m := by
  obtain ⟨id, v, w, ha, hm⟩ := h.mate_eq_some.1 ha
  rw [h.idOf_call ha]
  constructor
  · intro hid
    rw [← h.length] at hc
    obtain ⟨id', -, ⟨v', hv⟩ | ⟨w', hw⟩⟩ := callAt_or_returnAt hc
    · obtain rfl := (h.idOf_call hv).symm.trans hid
      exact .inl (h.call_unique _ _ _ _ _ hv ha)
    · obtain rfl := (idOf_return hw).symm.trans hid
      exact .inr (h.ret_unique _ _ _ _ _ hw hm)
  · rintro (rfl | rfl)
    · exact h.idOf_call ha
    · exact idOf_return hm

end WellFormed

end

end DistLabs.Porcupine
