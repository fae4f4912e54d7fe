import Mathlib.Data.List.Nodup
import Mathlib.Data.List.Perm.Basic
import Mathlib.Algebra.Order.Group.Int

/-!
# Orders of intervals

Things that take time, from `call` to `ret`, in an order in which none comes before another one
that was over before it began (`Orderly`). Such an order gives everything a point of time in its
interval, so that the points do not decrease: the latest beginning so far (`points`). Orders of
separate families can thus be merged into one order that keeps each of them
(`exists_interleaving`).
-/

namespace DistLabs.Lib

variable {α κ : Type} {call ret : α → Int}

/-- Nothing comes before what was over before it began. -/
def Orderly (call ret : α → Int) (l : List α) : Prop :=
  l.Pairwise fun a b => ¬ ret b < call a

/-- The points of time of things that are in order. -/
def points (call : α → Int) : List α → List (Int × α)
  | [] => []
  | a :: l => (call a, a) :: (points call l).map fun p => (max (call a) p.1, p.2)

/-- There is one point for each thing, in the same order. -/
theorem map_snd_points (l : List α) : (points call l).map (·.2) = l := by
  induction l with
  | nil => rfl
  | cons a l ih =>
    rw [points, List.map_cons, List.map_map]
    exact congrArg (a :: ·) ih

/-- The points do not decrease. -/
theorem points_sorted (l : List α) : (points call l).Pairwise (·.1 ≤ ·.1) := by
  induction l with
  | nil => exact .nil
  | cons a l ih =>
    refine List.pairwise_cons.2 ⟨fun p hp => ?_, List.pairwise_map.2 (ih.imp fun h => ?_)⟩
    · obtain ⟨q, -, rfl⟩ := List.mem_map.1 hp
      exact le_max_left ..
    · exact max_le_max_left _ h

/-- A point is in the interval. -/
theorem points_mem {l : List α} (hintervals : ∀ a ∈ l, call a ≤ ret a) (hl : Orderly call ret l) :
    ∀ p ∈ points call l, call p.2 ≤ p.1 ∧ p.1 ≤ ret p.2 := by
  induction l with
  | nil => exact fun p hp => absurd hp List.not_mem_nil
  | cons a l ih =>
    obtain ⟨hfirst, hl⟩ := List.pairwise_cons.1 hl
    intro p hp
    rcases List.mem_cons.1 hp with rfl | hp
    · exact ⟨le_refl _, hintervals a List.mem_cons_self⟩
    · obtain ⟨q, hq, rfl⟩ := List.mem_map.1 hp
      obtain ⟨hlow, hhigh⟩ := ih (fun b hb => hintervals b (List.mem_cons_of_mem a hb)) hl q hq
      have hmem : q.2 ∈ (points call l).map (·.2) := List.mem_map_of_mem hq
      rw [map_snd_points] at hmem
      exact ⟨le_max_of_le_right hlow, max_le (not_lt.1 (hfirst q.2 hmem)) hhigh⟩

/-- What is sorted by points in the intervals is in order. -/
theorem orderly_of_points {l : List (Int × α)} (hl : l.Pairwise (·.1 ≤ ·.1))
    (hmem : ∀ p ∈ l, call p.2 ≤ p.1 ∧ p.1 ≤ ret p.2) : Orderly call ret (l.map (·.2)) := by
  refine List.pairwise_map.2 (hl.imp_of_mem fun {p q} hp hq hle hlt => ?_)
  have := (hmem p hp).1
  have := (hmem q hq).2
  omega

variable [DecidableEq κ] {key : α → κ}

/-- The members of one family. -/
theorem filter_flatMap {f : κ → List α} {ks : List κ} (hks : ks.Nodup)
    (hkey : ∀ k, ∀ a ∈ f k, key a = k)
    {k : κ} (hk : k ∈ ks) : (ks.flatMap f).filter (key · = k) = f k := by
  have hother : ∀ k' ≠ k, (f k').filter (key · = k) = [] := fun k' hne =>
    List.filter_eq_nil_iff.2 fun a ha => by simpa [hkey k' a ha] using hne
  have hself : (f k).filter (key · = k) = f k :=
    List.filter_eq_self.2 fun a ha => by simpa using hkey k a ha
  have hnone : ∀ ks : List κ, k ∉ ks → (ks.flatMap f).filter (key · = k) = [] := by
    intro ks hks
    rw [List.filter_flatMap, List.flatMap_eq_nil_iff]
    exact fun k' hk' => hother k' fun heq => hks (heq ▸ hk')
  obtain ⟨xs, ys, rfl⟩ := List.append_of_mem hk
  have hsplit := List.nodup_middle.1 hks
  rw [List.nodup_cons, List.mem_append, not_or] at hsplit
  rw [List.flatMap_append, List.flatMap_cons, List.filter_append, List.filter_append, hself,
    hnone xs hsplit.1.1, hnone ys hsplit.1.2, List.nil_append, List.append_nil]

/-- A list consists of its families. -/
theorem flatMap_filter_perm {ks : List κ} {l : List α} (hks : ks.Nodup)
    (hl : ∀ a ∈ l, key a ∈ ks) :
    (ks.flatMap fun k => l.filter (key · = k)).Perm l := by
  induction ks generalizing l with
  | nil =>
    rw [List.eq_nil_iff_forall_not_mem.2 fun a ha => List.not_mem_nil (hl a ha)]
    rfl
  | cons k ks ih =>
    obtain ⟨hk, hks⟩ := List.nodup_cons.1 hks
    have hrest : (ks.flatMap fun k' => l.filter (key · = k')) =
        ks.flatMap fun k' => (l.filter (key · ≠ k)).filter (key · = k') := by
      refine List.flatMap_congr fun k' hk' => ?_
      rw [List.filter_filter]
      refine List.filter_congr fun a _ => ?_
      have hne : k' ≠ k := fun heq => hk (heq ▸ hk')
      by_cases ha : key a = k'
      · simp [ha, hne]
      · simp [ha]
    rw [List.flatMap_cons, hrest]
    refine (List.Perm.append_left _ (ih hks fun a ha => ?_)).trans ?_
    · obtain ⟨ha, hne⟩ := List.mem_filter.1 ha
      exact (List.mem_cons.1 (hl a ha)).resolve_left (of_decide_eq_true hne)
    · simpa using List.filter_append_perm (fun a => decide (key a = k)) l

/-- Families that are in order can be put into one order. -/
theorem exists_interleaving {f : κ → List α} {ks : List κ} (hks : ks.Nodup)
    (hkey : ∀ k, ∀ a ∈ f k, key a = k) (hintervals : ∀ k, ∀ a ∈ f k, call a ≤ ret a)
    (hf : ∀ k, Orderly call ret (f k)) :
    ∃ l, Orderly call ret l ∧ l.Perm (ks.flatMap f) ∧ ∀ k ∈ ks, l.filter (key · = k) = f k := by
  let le : Int × α → Int × α → Bool := fun p q => p.1 ≤ q.1
  have htrans : ∀ p q r, le p q → le q r → le p r := fun p q r hpq hqr =>
    decide_eq_true ((of_decide_eq_true hpq).trans (of_decide_eq_true hqr))
  have htotal : ∀ p q, le p q || le q p := fun p q => by simpa [le] using le_total p.1 q.1
  have hsnd : (ks.flatMap fun k => points call (f k)).map (·.2) = ks.flatMap f := by
    rw [List.map_flatMap]
    simp only [map_snd_points]
  have hperm := List.mergeSort_perm (ks.flatMap fun k => points call (f k)) le
  refine ⟨((ks.flatMap fun k => points call (f k)).mergeSort le).map (·.2), ?_, ?_, fun k hk => ?_⟩
  · refine orderly_of_points ((List.pairwise_mergeSort htrans htotal _).imp of_decide_eq_true)
      fun p hp => ?_
    obtain ⟨k, -, hp⟩ := List.mem_flatMap.1 (hperm.subset hp)
    exact points_mem (hintervals k) (hf k) p hp
  · exact hsnd ▸ hperm.map _
  · -- merging keeps the order of the family, and there is nothing else of it
    have hsub : (points call (f k)).Sublist (ks.flatMap fun k => points call (f k)) := by
      obtain ⟨xs, ys, rfl⟩ := List.append_of_mem hk
      rw [List.flatMap_append, List.flatMap_cons]
      exact (List.sublist_append_left ..).trans (List.sublist_append_right ..)
    have hmerged := List.sublist_mergeSort htrans htotal
      ((points_sorted (f k)).imp fun h => decide_eq_true h) hsub
    have hfilter := (hmerged.map (·.2)).filter (key · = k)
    have hself : (f k).filter (key · = k) = f k :=
      List.filter_eq_self.2 fun a ha => by simpa using hkey k a ha
    rw [map_snd_points, hself] at hfilter
    refine (hfilter.eq_of_length ?_).symm
    have hlength := ((hsnd ▸ hperm.map _).filter (key · = k)).length_eq
    rw [hlength, filter_flatMap hks hkey hk]

end DistLabs.Lib
