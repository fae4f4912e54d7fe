import Mathlib.Data.Fintype.Card

/-!
# Go's maps and strings

A Go `map` is a finite map. `GoMap` is the extensional tree map of the standard library: two of
them are equal when they have the same entries. A `range` loop visits the entries of a map in an
order that Go chooses anew for every loop; a `RangeOrder` is such a choice, and `GoMap.range` is
what the loop sees.
-/

namespace DistLabs.Lib

/-- A Go string: a sequence of bytes. -/
abbrev GoString := List UInt8

instance : LawfulBEq GoString := List.instLawfulBEq

/-- A Go map. -/
abbrev GoMap (κ ν : Type) [Ord κ] := Std.ExtTreeMap κ ν

/-- The order in which a `range` loop visits the keys of a map. -/
structure RangeOrder (κ : Type) where
  order : List κ → List κ
  perm : ∀ l, (order l).Perm l

/-- Visit the keys in increasing order. -/
def RangeOrder.increasing {κ : Type} : RangeOrder κ := ⟨id, fun l => .refl l⟩

variable {κ ν : Type} [Ord κ] [Std.TransOrd κ]

/-- The entries of a map, in the order of a `range` loop. -/
def GoMap.range (m : GoMap κ ν) (o : RangeOrder κ) : List (κ × ν) :=
  (o.order m.keys).filterMap fun k => m[k]?.map fun v => (k, v)

/-- What a map has after an assignment. -/
theorem GoMap.getElem?_insert [DecidableEq κ] [Std.LawfulEqOrd κ] (m : GoMap κ ν)
    (k a : κ) (v : ν) :
    (m.insert k v)[a]? = if a = k then some v else m[a]? := by
  rw [Std.ExtTreeMap.getElem?_insert]
  by_cases h : a = k
  · rw [if_pos h, if_pos (by rw [h]; exact Std.ReflCmp.compare_self)]
  · rw [if_neg h, if_neg fun hc => h (Std.LawfulEqCmp.eq_of_compare hc).symm]

theorem GoMap.empty_union [Std.LawfulEqOrd κ] (m : GoMap κ ν) : (∅ : GoMap κ ν) ∪ m = m := by
  refine Std.ExtTreeMap.ext_getElem? fun k => ?_
  rw [Std.ExtTreeMap.getElem?_union, Std.ExtTreeMap.getElem?_empty, Option.or_none]

/-! ## Loops -/

section
variable [Std.LawfulEqOrd κ] {m : GoMap κ ν} {o o' : RangeOrder κ}

/-- A loop visits exactly the entries of the map. -/
theorem GoMap.mem_range {k : κ} {v : ν} : (k, v) ∈ m.range o ↔ m[k]? = some v := by
  unfold GoMap.range
  rw [List.mem_filterMap]
  constructor
  · rintro ⟨k', -, hv⟩
    obtain ⟨v', hv', heq⟩ := Option.map_eq_some_iff.1 hv
    cases heq
    exact hv'
  · intro hv
    refine ⟨k, (o.perm _).mem_iff.2 (Std.ExtTreeMap.mem_keys.2 ?_), by rw [hv]; rfl⟩
    rw [Std.ExtTreeMap.mem_iff_isSome_getElem?, hv]
    rfl

/-- A loop visits every key once. -/
theorem GoMap.map_fst_range : (m.range o).map (·.1) = o.order m.keys := by
  have hkeys : ∀ l : List κ, (∀ k ∈ l, k ∈ m) →
      (l.filterMap fun k => m[k]?.map fun v => (k, v)).map (·.1) = l := by
    intro l hl
    induction l with
    | nil => rfl
    | cons k l ih =>
      obtain ⟨v, hv⟩ := Option.isSome_iff_exists.1
        (Std.ExtTreeMap.mem_iff_isSome_getElem?.1 (hl k List.mem_cons_self))
      rw [List.filterMap_cons_some (by rw [hv]; rfl), List.map_cons,
        ih fun k' hk' => hl k' (List.mem_cons_of_mem k hk')]
  exact hkeys _ fun k hk => Std.ExtTreeMap.mem_keys.1 ((o.perm _).mem_iff.1 hk)

/-- Two loops visit the same keys. -/
theorem GoMap.range_perm : ((m.range o).map (·.1)).Perm ((m.range o').map (·.1)) := by
  rw [map_fst_range, map_fst_range]
  exact (o.perm _).trans (o'.perm _).symm

variable [DecidableEq κ] {μ : Type}

/-- What a loop that assigns to the keys of `m` leaves behind. -/
theorem GoMap.getElem?_foldl_insert (f : κ → ν → μ) {l : List (κ × ν)}
    (hl : ∀ e ∈ l, m[e.1]? = some e.2) (acc : GoMap κ μ) (k : κ) :
    (l.foldl (fun acc e => acc.insert e.1 (f e.1 e.2)) acc)[k]? =
      if k ∈ l.map (·.1) then m[k]?.map (f k) else acc[k]? := by
  induction l generalizing acc with
  | nil => rfl
  | cons e l ih =>
    rw [List.foldl_cons, ih (fun e' he' => hl e' (List.mem_cons_of_mem e he')), getElem?_insert,
      List.map_cons]
    by_cases hk : k = e.1
    · rw [if_pos hk, hk, hl e List.mem_cons_self, Option.map_some, ite_self,
        if_pos List.mem_cons_self]
    · simp only [List.mem_cons, hk, false_or, if_false]

/-- A loop over a map assigns to all of its keys. -/
theorem GoMap.getElem?_foldl_range (o : RangeOrder κ) (f : κ → ν → μ) (acc : GoMap κ μ) (k : κ) :
    ((m.range o).foldl (fun acc e => acc.insert e.1 (f e.1 e.2)) acc)[k]? =
      (m[k]?.map (f k)).or acc[k]? := by
  rw [getElem?_foldl_insert f fun _ he => mem_range.1 he]
  split
  · next hk =>
    obtain ⟨⟨k', v⟩, he, rfl⟩ := List.mem_map.1 hk
    rw [mem_range.1 he, Option.map_some, Option.some_or]
  · next hk =>
    cases hv : m[k]? with
    | none => rfl
    | some v => exact absurd (List.mem_map_of_mem (mem_range.2 hv)) hk

/-- The order of such a loop does not matter. -/
theorem GoMap.foldl_range_insert (o o' : RangeOrder κ) (f : κ → ν → μ) (acc : GoMap κ μ) :
    (m.range o).foldl (fun acc e => acc.insert e.1 (f e.1 e.2)) acc =
      (m.range o').foldl (fun acc e => acc.insert e.1 (f e.1 e.2)) acc := by
  refine Std.ExtTreeMap.ext_getElem? fun k => ?_
  rw [getElem?_foldl_range, getElem?_foldl_range]

end

/-- A loop that establishes something at one of its elements and does not destroy it at any other
ends with it. -/
theorem foldl_of_mem {α β : Type} {f : β → α → β} {P : β → Prop} {a : α} {l : List α} (ha : a ∈ l)
    (hmake : ∀ b, P (f b a)) (hkeep : ∀ b, ∀ a' ∈ l, P b → P (f b a')) (b : β) :
    P (l.foldl f b) := by
  induction l generalizing b with
  | nil => cases ha
  | cons a' l ih =>
    have hkeep' : ∀ b, ∀ a' ∈ l, P b → P (f b a') := fun b a' ha' =>
      hkeep b a' (List.mem_cons_of_mem _ ha')
    rcases List.mem_cons.1 ha with rfl | ha
    · exact List.foldlRecOn l f (hmake b) fun b hb a' ha' => hkeep' b a' ha' hb
    · exact ih ha hkeep' _

end DistLabs.Lib
