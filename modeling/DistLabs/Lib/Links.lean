import Mathlib.Logic.Function.Basic

/-!
# Doubly linked lists

The two pointers of every node, by its address. `Linked k l` says that the addresses of `l` are
linked in this order. A node that is taken out (`unlink`) keeps its own pointers, so it can be put
back (`relink`) where it was, and the pointers are again what they were before (`relink_unlink`).
-/

namespace DistLabs.Lib

/-- The pointers of nodes. -/
structure Links where
  next : Nat → Option Nat
  prev : Nat → Option Nat

namespace Links

/-- No node is linked. -/
def empty : Links := ⟨fun _ => none, fun _ => none⟩

/-- Assign to the `next` of a node. -/
def setNext (k : Links) (a : Nat) (b : Option Nat) : Links :=
  { k with next := Function.update k.next a b }

/-- Assign to the `prev` of a node. -/
def setPrev (k : Links) (a : Nat) (b : Option Nat) : Links :=
  { k with prev := Function.update k.prev a b }

/-- Link the node before `a` and the node after it to each other. The node before must be there. -/
def unlink (k : Links) (a : Nat) : Option Links := do
  let before ← k.prev a
  let k := k.setNext before (k.next a)
  match k.next a with
  | none => return k
  | some after => return k.setPrev after (some before)

/-- Link the node before `a` and the node after it to `a`. -/
def relink (k : Links) (a : Nat) : Option Links := do
  let before ← k.prev a
  let k := k.setNext before (some a)
  match k.next a with
  | none => return k
  | some after => return k.setPrev after (some a)

/-- The nodes are linked in this order, and the last one has no next. -/
def Linked (k : Links) : List Nat → Prop
  | [] => True
  | [a] => k.next a = none
  | a :: b :: l => k.next a = some b ∧ k.prev b = some a ∧ Linked k (b :: l)

section
variable {k k' : Links} {a b : Nat} {l xs ys : List Nat}

theorem Linked.tail (h : Linked k (a :: l)) : Linked k l := by
  cases l with
  | nil => trivial
  | cons b l => exact h.2.2

/-- The next of the first node is the second one. -/
theorem Linked.next_eq (h : Linked k (a :: l)) : k.next a = l.head? := by
  cases l with
  | nil => exact h
  | cons b l => exact h.1

theorem Linked.right (h : Linked k (xs ++ ys)) : Linked k ys := by
  induction xs with
  | nil => exact h
  | cons a xs ih => exact ih h.tail

/-- Only the pointers of its nodes matter, but not where the first one points back to. -/
theorem Linked.congr (h : Linked k (a :: l)) (hnext : ∀ b ∈ a :: l, k'.next b = k.next b)
    (hprev : ∀ b ∈ l, k'.prev b = k.prev b) : Linked k' (a :: l) := by
  induction l generalizing a with
  | nil => exact (hnext a List.mem_cons_self).trans h
  | cons b l ih =>
    refine ⟨(hnext a List.mem_cons_self).trans h.1, (hprev b List.mem_cons_self).trans h.2.1, ?_⟩
    exact ih h.2.2 (fun c hc => hnext c (List.mem_cons_of_mem _ hc))
      fun c hc => hprev c (List.mem_cons_of_mem _ hc)

/-- What follows a node may be replaced if the pointers before it stay as they are. -/
theorem Linked.replace {p : Nat} {zs : List Nat} (h : Linked k (xs ++ p :: ys))
    (hnext : ∀ a ∈ xs, k'.next a = k.next a) (hprev : ∀ a ∈ xs ++ [p], k'.prev a = k.prev a)
    (hlinked : Linked k' (p :: zs)) : Linked k' (xs ++ p :: zs) := by
  induction xs with
  | nil => exact hlinked
  | cons x xs ih =>
    have ih' := ih h.tail (fun a ha => hnext a (List.mem_cons_of_mem _ ha))
      fun a ha => hprev a (List.mem_cons_of_mem _ ha)
    have hx := hnext x List.mem_cons_self
    cases xs with
    | nil => exact ⟨hx.trans h.1, (hprev p (by simp)).trans h.2.1, ih'⟩
    | cons y xs => exact ⟨hx.trans h.1, (hprev y (by simp)).trans h.2.1, ih'⟩

/-- A node that is taken out leaves the others linked, and can be put back. Its own pointers
stay. -/
theorem Linked.unlink_next {p : Nat} (h : Linked k (xs ++ p :: a :: ys))
    (hnodup : (xs ++ p :: a :: ys).Nodup) :
    ∃ k', k.unlink a = some k' ∧ Linked k' (xs ++ p :: ys) ∧ k'.relink a = some k ∧
      k'.next a = k.next a ∧ k'.prev a = k.prev a := by
  have hright := h.right
  have hprev : k.prev a = some p := hright.2.1
  have hnext := hright.2.2.next_eq
  simp only [List.nodup_append, List.nodup_cons, List.mem_cons, not_or] at hnodup
  obtain ⟨-, ⟨⟨hpa, hpy⟩, hay, hys⟩, hapart⟩ := hnodup
  have hxp : ∀ x ∈ xs, x ≠ p := fun x hx => hapart x hx p (.inl rfl)
  have hkeep : Function.update k.next p (some a) = k.next := by
    rw [← hright.1, Function.update_eq_self]
  cases ys with
  | nil =>
    refine ⟨k.setNext p none, ?_, ?_, ?_, ?_, rfl⟩
    · simp [Links.unlink, setNext, hprev, hnext, Ne.symm hpa]
    · refine h.replace (fun x hx => Function.update_of_ne (hxp x hx) ..) (fun _ _ => rfl) ?_
      exact Function.update_self ..
    · simp [relink, setNext, hprev, hnext, Ne.symm hpa, hkeep]
    · simp [setNext, Ne.symm hpa]
  | cons b ys =>
    have hkeep' : Function.update k.prev b (some a) = k.prev := by
      rw [← hright.2.2.2.1, Function.update_eq_self]
    have hab := List.ne_of_not_mem_cons hay
    have hpb := List.ne_of_not_mem_cons hpy
    have hpy := List.not_mem_of_not_mem_cons hpy
    have hne : ∀ x ∈ xs ++ [p], x ≠ b := by
      intro x hx
      rcases List.mem_append.1 hx with hx | hx
      · exact hapart x hx b (by simp)
      · rw [List.mem_singleton.1 hx]
        exact hpb
    refine ⟨(k.setNext p (some b)).setPrev b (some p), ?_, ?_, ?_, ?_, ?_⟩
    · simp [Links.unlink, setNext, hprev, hnext, Ne.symm hpa]
    · refine h.replace (fun x hx => Function.update_of_ne (hxp x hx) ..)
        (fun x hx => Function.update_of_ne (hne x hx) ..) ?_
      refine ⟨Function.update_self .., Function.update_self .., ?_⟩
      refine Linked.congr hright.2.2.2.2 (fun c hc => Function.update_of_ne ?_ ..)
        fun c hc => Function.update_of_ne ?_ ..
      · rintro rfl
        rcases List.mem_cons.1 hc with rfl | hc
        · exact hpb rfl
        · exact hpy hc
      · rintro rfl
        exact (List.nodup_cons.1 hys).1 hc
    · simp [relink, setNext, setPrev, hprev, hnext, Ne.symm hpa, hkeep, hkeep', hab]
    · simp [setNext, setPrev, Ne.symm hpa]
    · exact Function.update_of_ne hab ..

/-- The same for any node but the first one. -/
theorem Linked.unlink (h : Linked k (b :: (xs ++ a :: ys)))
    (hnodup : (b :: (xs ++ a :: ys)).Nodup) :
    ∃ k', k.unlink a = some k' ∧ Linked k' (b :: (xs ++ ys)) ∧ k'.relink a = some k ∧
      k'.next a = k.next a ∧ k'.prev a = k.prev a := by
  obtain ⟨us, p, heq⟩ : ∃ us p, b :: xs = us ++ [p] :=
    ⟨_, _, (List.dropLast_concat_getLast (List.cons_ne_nil b xs)).symm⟩
  have hsplit : ∀ l, b :: (xs ++ l) = us ++ p :: l := by
    intro l
    rw [← List.cons_append, heq, List.append_assoc, List.singleton_append]
  rw [hsplit] at h hnodup ⊢
  exact h.unlink_next hnodup

end

end Links

end DistLabs.Lib
