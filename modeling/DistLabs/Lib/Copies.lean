import DistLabs.Lib.Requests
import Mathlib.Data.List.Basic
import Mathlib.Order.Basic

/-!
# Copies of requests

A log may have any number of copies of a request, anywhere. `firstCopies` keeps the first ones. A
table of the largest request id of every client (`requestTable`) recognises exactly the other ones,
if the first copies of every client's requests come in the order of their ids (`known_iff`).
-/

namespace DistLabs.Lib

/-! ## First copies -/

section
variable {α κ : Type} [DecidableEq κ] (key : α → κ)

/-- The elements of a list whose key has not occurred before. -/
def firstCopies (l : List α) : List α :=
  l.foldl (fun acc a => if key a ∈ acc.map key then acc else acc ++ [a]) []

variable {key} {l : List α}

/-- A copy at the end counts only if it is the first one. -/
theorem firstCopies_concat' (l : List α) (a : α) : firstCopies key (l ++ [a]) =
    if key a ∈ (firstCopies key l).map key then firstCopies key l
    else firstCopies key l ++ [a] := by
  rw [firstCopies, List.foldl_append]
  rfl

/-- There is a first copy of everything. -/
theorem mem_map_firstCopies {k : κ} : k ∈ (firstCopies key l).map key ↔ k ∈ l.map key := by
  induction l using List.reverseRecOn with
  | nil => rfl
  | append_singleton l a ih =>
    rw [firstCopies_concat', List.map_append, List.mem_append, ← ih]
    split
    · next ha =>
      refine ⟨.inl, fun hk => hk.elim id fun hk => ?_⟩
      rwa [List.mem_singleton.1 hk]
    · rw [List.map_append, List.mem_append]

/-- A copy at the end of the list counts only if its key is new. -/
theorem firstCopies_concat (l : List α) (a : α) : firstCopies key (l ++ [a]) =
    if key a ∈ l.map key then firstCopies key l else firstCopies key l ++ [a] := by
  rw [firstCopies_concat']
  simp only [mem_map_firstCopies]

/-- First copies are elements of the list. -/
theorem firstCopies_subset : firstCopies key l ⊆ l := by
  induction l using List.reverseRecOn with
  | nil => exact List.Subset.refl _
  | append_singleton l a ih =>
    rw [firstCopies_concat]
    split
    · exact List.subset_append_of_subset_left _ ih
    · exact List.append_subset.2
        ⟨List.subset_append_of_subset_left _ ih, List.subset_append_right _ _⟩

/-- First copies have different keys. -/
theorem nodup_firstCopies : ((firstCopies key l).map key).Nodup := by
  induction l using List.reverseRecOn with
  | nil => exact List.nodup_nil
  | append_singleton l a ih =>
    rw [firstCopies_concat']
    split
    · exact ih
    · next ha =>
      rw [List.map_append, List.map_singleton]
      exact List.nodup_append.2 ⟨ih, List.nodup_singleton _, by
        rintro k hk k' hk' rfl
        exact ha (List.mem_singleton.1 hk' ▸ hk)⟩

end

/-! ## Requests in order -/

section
variable {α : Type} (id : α → Int × Int)

/-- For every client, the first copies of its requests come in the order of their ids. -/
def FirstsInOrder (l : List α) : Prop :=
  (firstCopies id l).Pairwise fun a b => (id a).1 = (id b).1 → (id a).2 < (id b).2

instance (l : List α) : Decidable (FirstsInOrder id l) :=
  inferInstanceAs (Decidable ((firstCopies id l).Pairwise fun a b =>
    (id a).1 = (id b).1 → (id a).2 < (id b).2))

variable {id} {l : List α} {a : α}

/-- The order of first copies holds of the list without its last element. -/
theorem FirstsInOrder.of_concat (h : FirstsInOrder id (l ++ [a])) : FirstsInOrder id l := by
  unfold FirstsInOrder at h
  rw [firstCopies_concat] at h
  split at h
  · exact h
  · exact (List.pairwise_append.1 h).1

/-- The order of first copies holds of every beginning of the list. -/
theorem FirstsInOrder.of_append {l' : List α} (h : FirstsInOrder id (l ++ l')) :
    FirstsInOrder id l := by
  induction l' using List.reverseRecOn with
  | nil => rwa [List.append_nil] at h
  | append_singleton l' a ih =>
    rw [← List.append_assoc] at h
    exact ih h.of_concat

/-- A first copy is later than all requests of its client so far. -/
theorem FirstsInOrder.lt (h : FirstsInOrder id (l ++ [a])) (ha : id a ∉ l.map id) {b : α}
    (hb : b ∈ l) (hclient : (id b).1 = (id a).1) : (id b).2 < (id a).2 := by
  unfold FirstsInOrder at h
  rw [firstCopies_concat, if_neg ha] at h
  obtain ⟨b', hb', heq⟩ :=
    List.mem_map.1 (mem_map_firstCopies.2 (List.mem_map_of_mem (f := id) hb))
  rw [← heq] at hclient ⊢
  exact (List.pairwise_append.1 h).2.2 b' hb' a (List.mem_singleton_self a) hclient

/-- Clients number their requests from 0 on, and a request comes after the one before it. -/
def Successive (id : α → Int × Int) (l : List α) : Prop :=
  ∀ p : Fin l.length, 0 ≤ (id l[p]).2 ∧
    (0 < (id l[p]).2 → ((id l[p]).1, (id l[p]).2 - 1) ∈ (l.take p).map id)

instance (id : α → Int × Int) (l : List α) : Decidable (Successive id l) :=
  inferInstanceAs (Decidable (∀ _ : Fin _, _))

/-- Then all smaller ids of the client occur, too. -/
theorem Successive.mem_of_le (h : Successive id l) (ha : a ∈ l) (n : Nat)
    (hn : (n : Int) ≤ (id a).2) :
    ((id a).1, (id a).2 - n) ∈ l.map id := by
  induction n with
  | zero => simpa using List.mem_map_of_mem (f := id) ha
  | succ n ih =>
    obtain ⟨b, hb, heq⟩ := List.mem_map.1 (ih (by omega))
    obtain ⟨p, rfl⟩ := List.mem_iff_get.1 hb
    have hbefore := (h p).2 (by rw [Fin.getElem_fin, ← List.get_eq_getElem, heq]; omega)
    rw [Fin.getElem_fin, ← List.get_eq_getElem, heq] at hbefore
    have hsub : (id a).2 - (n + 1 : Nat) = (id a).2 - n - 1 := by omega
    rw [hsub]
    exact ((List.take_sublist p l).map id).subset hbefore

/-- A list of successive requests without its last element is one. -/
theorem Successive.of_concat (h : Successive id (l ++ [a])) : Successive id l := by
  intro p
  have hp := h ⟨p, by rw [List.length_append]; omega⟩
  rw [Fin.getElem_fin, List.getElem_append_left p.2, List.take_append_of_le_length p.2.le] at hp
  exact hp

/-- Then requests are in order. -/
theorem Successive.inOrder (h : Successive id l) : FirstsInOrder id l := by
  induction l using List.reverseRecOn with
  | nil => exact List.Pairwise.nil
  | append_singleton l a ih =>
    have hl := h.of_concat
    unfold FirstsInOrder
    rw [firstCopies_concat]
    split
    · exact ih hl
    · next ha =>
      refine List.pairwise_append.2
        ⟨ih hl, List.pairwise_singleton _ _, fun b hb a' ha' hclient => ?_⟩
      rw [List.mem_singleton.1 ha'] at hclient ⊢
      by_contra hge
      have hpos := (h ⟨l.length, by simp⟩).1
      rw [Fin.getElem_fin, List.getElem_concat_length rfl] at hpos
      have hmem := hl.mem_of_le (firstCopies_subset hb) ((id b).2 - (id a).2).toNat (by omega)
      refine ha (?_ : id a ∈ l.map id)
      have heq : ((id b).1, (id b).2 - ((id b).2 - (id a).2).toNat) = id a :=
        Prod.ext hclient (by dsimp only; omega)
      rwa [heq] at hmem

end

/-! ## The table -/

/-- The table after a list of requests. -/
def requestTable (l : List (Int × Int)) : GoMap Int Int :=
  l.foldl (fun m i => enterRequest m i.1 i.2) ∅

theorem requestTable_concat (l : List (Int × Int)) (i : Int × Int) :
    requestTable (l ++ [i]) = enterRequest (requestTable l) i.1 i.2 := by
  rw [requestTable, List.foldl_append]
  rfl

section
variable {l : List (Int × Int)} {c r : Int}

/-- What the table has for a client is a request of that client. -/
theorem mem_of_requestTable (h : r ∈ (requestTable l)[c]?) : (c, r) ∈ l := by
  induction l using List.reverseRecOn with
  | nil =>
    rw [Option.mem_def, requestTable, List.foldl_nil, Std.ExtTreeMap.getElem?_empty] at h
    cases h
  | append_singleton l i ih =>
    rw [requestTable_concat] at h
    rcases mem_enterRequest h with hold | ⟨rfl, rfl⟩
    · exact List.mem_append_left _ (ih hold)
    · exact List.mem_append_right _ (List.mem_singleton_self _)

/-- The table has every request or a later one of its client. -/
theorem requestTable_known (h : (c, r) ∈ l) : ∃ last ∈ (requestTable l)[c]?, r ≤ last := by
  induction l using List.reverseRecOn with
  | nil => cases h
  | append_singleton l i ih =>
    rw [requestTable_concat]
    rcases List.mem_append.1 h with hold | hnew
    · obtain ⟨last, hlast, hle⟩ := ih hold
      obtain ⟨last', hlast', hle'⟩ := enterRequest_le (c := i.1) (r := i.2) hlast
      exact ⟨last', hlast', hle.trans hle'⟩
    · obtain rfl := List.mem_singleton.1 hnew
      exact enterRequest_known ..

/-- The table has the largest id of every client. -/
theorem getElem?_requestTable (l : List (Int × Int)) (c : Int) :
    (requestTable l)[c]? = ((l.filter (·.1 = c)).map (·.2)).max? := by
  have hmem : ∀ r, r ∈ (l.filter (·.1 = c)).map (·.2) ↔ (c, r) ∈ l := by
    intro r
    simp
  symm
  cases htable : (requestTable l)[c]? with
  | none =>
    rw [List.max?_eq_none_iff, List.eq_nil_iff_forall_not_mem]
    intro r hr
    obtain ⟨last, hlast, -⟩ := requestTable_known ((hmem r).1 hr)
    rw [htable] at hlast
    cases hlast
  | some last =>
    refine List.max?_eq_some_iff.2 ⟨(hmem last).2 (mem_of_requestTable htable), fun r hr => ?_⟩
    obtain ⟨last', hlast', hle⟩ := requestTable_known ((hmem r).1 hr)
    rw [htable] at hlast'
    cases hlast'
    exact hle

end

/-- **The table recognises copies**: a request is known if and only if it has come before. -/
theorem known_iff {α : Type} {id : α → Int × Int} {l : List α} {a : α}
    (h : FirstsInOrder id (l ++ [a])) :
    (∃ last ∈ (requestTable (l.map id))[(id a).1]?, (id a).2 ≤ last) ↔ id a ∈ l.map id := by
  constructor
  · rintro ⟨last, hlast, hle⟩
    by_contra ha
    obtain ⟨b, hb, heq⟩ := List.mem_map.1 (mem_of_requestTable hlast)
    have hlt := h.lt ha hb (by rw [heq])
    rw [heq] at hlt
    exact absurd hle (not_le.2 hlt)
  · exact fun ha => requestTable_known ha

end DistLabs.Lib
