import Mathlib.Data.List.Basic
import Mathlib.Order.Defs.Unbundled

/-!
# Runs of equal keys

`runs` cuts a list into maximal runs of elements with the same key. If the list is sorted by key,
there is one run for every key, with all elements that have it (`mem_runs`, `nodup_runs`).
-/

namespace DistLabs.Lib

variable {α κ : Type} [DecidableEq κ]

/-- Maximal runs of elements with the same key, with their keys. -/
def runs (key : α → κ) : List α → List (κ × List α)
  | [] => []
  | a :: l => (key a, a :: l.takeWhile (key · = key a)) :: runs key (l.dropWhile (key · = key a))
termination_by l => l.length
decreasing_by
  rw [List.length_cons]
  exact Nat.lt_succ_of_le (List.dropWhile_sublist _).length_le

variable {key : α → κ} {r : κ → κ → Prop} {a : α} {l : List α}

/-- If what has a property comes first, it is a run. -/
theorem takeWhile_dropWhile_eq_filter {p : α → Bool} (h : l.Pairwise fun x y => p y → p x) :
    l.takeWhile p = l.filter p ∧ l.dropWhile p = l.filter (!p ·) := by
  induction l with
  | nil => exact ⟨rfl, rfl⟩
  | cons b l ih =>
    obtain ⟨hb, hl⟩ := List.pairwise_cons.1 h
    rw [List.takeWhile_cons, List.dropWhile_cons, List.filter_cons, List.filter_cons]
    cases hpb : p b with
    | true => simp [ih hl]
    | false =>
      have hnone : ∀ c ∈ l, p c = false := fun c hc => by
        by_contra hpc
        exact Bool.false_ne_true (hpb.symm.trans (hb c hc (Bool.not_eq_false _ ▸ hpc)))
      refine ⟨?_, ?_⟩
      · simpa using hnone
      · simp only [Bool.false_eq_true, if_false, Bool.not_false, if_true]
        congr 1
        exact (List.filter_eq_self.2 fun c hc => by rw [hnone c hc]; rfl).symm

/-- The key of `a` is none of the keys that differ from it. -/
theorem notMem_map_filter_ne (a : α) (l : List α) :
    key a ∉ (l.filter (key · ≠ key a)).map key := by
  rw [List.mem_map]
  rintro ⟨x, hx, heq⟩
  exact of_decide_eq_true (List.mem_filter.1 hx).2 heq

section
variable (hanti : ∀ a b, r a b → r b a → a = b)
include hanti

/-- In a sorted list, the elements with the first key are a run. -/
theorem runs_cons (h : (a :: l).Pairwise fun x y => r (key x) (key y)) :
    runs key (a :: l) =
      (key a, (a :: l).filter (key · = key a)) :: runs key (l.filter (key · ≠ key a)) := by
  obtain ⟨ha, hl⟩ := List.pairwise_cons.1 h
  have hfirst : l.Pairwise fun x y => decide (key y = key a) → decide (key x = key a) := by
    refine hl.imp_of_mem fun {x y} hx _ hxy hy => ?_
    rw [decide_eq_true_eq] at hy ⊢
    rw [hy] at hxy
    exact hanti _ _ hxy (ha x hx)
  obtain ⟨htake, hdrop⟩ := takeWhile_dropWhile_eq_filter hfirst
  rw [runs, htake, hdrop, List.filter_cons, if_pos (decide_eq_true rfl)]
  simp only [ne_eq, decide_not]

/-- **A sorted list has one run for every key**, with all elements that have the key. -/
theorem mem_runs (h : l.Pairwise fun x y => r (key x) (key y)) {k : κ} {g : List α} :
    (k, g) ∈ runs key l ↔ k ∈ l.map key ∧ g = l.filter (key · = k) := by
  induction hn : l.length using Nat.strongRecOn generalizing l with
  | ind n ih =>
    cases l with
    | nil => simp [runs]
    | cons a l =>
      have hlt : (l.filter (key · ≠ key a)).length < n := by
        rw [← hn, List.length_cons]
        exact Nat.lt_succ_of_le (List.length_filter_le ..)
      have hrest := ih _ hlt ((List.pairwise_cons.1 h).2.filter (key · ≠ key a)) rfl
      rw [runs_cons hanti h, List.mem_cons, hrest, Prod.mk.injEq]
      by_cases hk : k = key a
      · subst hk
        simp only [notMem_map_filter_ne, false_and, or_false, true_and, List.map_cons,
          List.mem_cons_self]
      · have hmem : k ∈ (l.filter (key · ≠ key a)).map key ↔ k ∈ (a :: l).map key := by
          simp only [List.mem_map, List.mem_filter, List.mem_cons, decide_eq_true_eq]
          grind
        have hfilter : (l.filter (key · ≠ key a)).filter (key · = k) =
            (a :: l).filter (key · = k) := by
          rw [List.filter_filter, List.filter_cons, if_neg (by simpa using Ne.symm hk)]
          refine List.filter_congr fun x _ => ?_
          by_cases hx : key x = k
          · simp [hx, hk]
          · simp [hx]
        rw [hmem, hfilter]
        simp only [hk, false_and, false_or]

/-- The runs of a sorted list have different keys. -/
theorem nodup_runs (h : l.Pairwise fun x y => r (key x) (key y)) :
    ((runs key l).map Prod.fst).Nodup := by
  induction hn : l.length using Nat.strongRecOn generalizing l with
  | ind n ih =>
    cases l with
    | nil => simp [runs]
    | cons a l =>
      have hlt : (l.filter (key · ≠ key a)).length < n := by
        rw [← hn, List.length_cons]
        exact Nat.lt_succ_of_le (List.length_filter_le ..)
      have hsorted := (List.pairwise_cons.1 h).2.filter (key · ≠ key a)
      rw [runs_cons hanti h, List.map_cons, List.nodup_cons]
      refine ⟨fun hmem => ?_, ih _ hlt hsorted rfl⟩
      obtain ⟨⟨k, g⟩, hrun, rfl⟩ := List.mem_map.1 hmem
      exact notMem_map_filter_ne a l ((mem_runs hanti hsorted).1 hrun).1

end

end DistLabs.Lib
