import Mathlib.Algebra.BigOperators.Group.Finset.Basic
import Mathlib.Algebra.Order.BigOperators.Group.Finset
import Mathlib.InformationTheory.Hamming

/-!
# Balancing items over places

Items of a finite type `ν` are assigned to places of a type `ι`. A greedy move takes one item that
is nowhere in `G`, or one of the fullest place of `G`, to the emptiest place of `G`. The items that
an assignment with loads `x` and one with loads `d` can have in common are at most `common G x d`.
Every greedy move makes that larger for some way `d` to balance the loads
(`GreedyMove.exists_common`), so that greedy moves end, and are no more than it takes to get to any
balanced assignment (`hammingDist_le`).
-/

namespace DistLabs.Lib

open Finset

variable {ν ι : Type} [Fintype ν] [DecidableEq ι]

/-- The number of items at a place. -/
def load (s : ν → ι) (g : ι) : ℕ := #{i | s i = g}

/-- The loads of any two places of `G` differ by at most 1. -/
def EvenlyLoaded (G : Finset ι) (x : ι → ℕ) : Prop := ∀ g ∈ G, ∀ h ∈ G, x g ≤ x h + 1

instance (G : Finset ι) (x : ι → ℕ) : Decidable (EvenlyLoaded G x) :=
  inferInstanceAs (Decidable (∀ _ ∈ _, ∀ _ ∈ _, _))

/-- The most items that assignments with loads `x` and `d` can have in common on `G`. -/
def common (G : Finset ι) (x d : ι → ℕ) : ℕ := ∑ g ∈ G, min (x g) (d g)

/-! ## Loads -/

section
variable {G : Finset ι} {s t : ν → ι} {x d : ι → ℕ} {a b g : ι}

/-- Every item is somewhere. -/
theorem sum_load (h : ∀ i, s i ∈ G) : ∑ g ∈ G, load s g = Fintype.card ν :=
  (card_eq_sum_card_fiberwise fun i _ => h i).symm

/-- The loads of groups sum up to the number of shards at most. -/
theorem sum_load_le (G : Finset ι) (s : ν → ι) : ∑ g ∈ G, load s g ≤ Fintype.card ν := by
  have h := sum_load (s := s) (G := G ∪ univ.image s) fun i =>
    mem_union_right _ (mem_image_of_mem s (mem_univ i))
  rw [← h]
  exact sum_le_sum_of_subset subset_union_left

/-- An item that is nowhere in `G` is missing from the sum. -/
theorem sum_load_lt {i : ν} (h : s i ∉ G) : ∑ g ∈ G, load s g < Fintype.card ν := by
  have hi : 0 < load s (s i) := card_pos.2 ⟨i, by simp⟩
  have hle := sum_load_le (insert (s i) G) s
  rw [sum_insert h] at hle
  omega

theorem load_le_card (s : ν → ι) (g : ι) : load s g ≤ Fintype.card ν := by
  have h := sum_load_le {g} s
  rwa [sum_singleton] at h

/-- A group that owns nothing has no load. -/
theorem load_eq_zero (h : ∀ i, s i ≠ g) : load s g = 0 :=
  card_eq_zero.2 (filter_eq_empty_iff.2 fun i _ => h i)

/-- The load of a group depends on the shards it owns only. -/
theorem load_congr (h : ∀ i, s i = g ↔ t i = g) : load s g = load t g := by
  unfold load
  simp only [h]

theorem load_pos {i : ν} : 0 < load s (s i) := card_pos.2 ⟨i, by simp⟩

variable [DecidableEq ν]

/-- One item is taken to another place. -/
theorem load_update {i : ν} (hb : s i ≠ b) (g : ι) :
    load (Function.update s i b) g =
      if g = b then load s b + 1 else if g = s i then load s (s i) - 1 else load s g := by
  unfold load
  by_cases hgb : g = b
  · subst hgb
    have hset : univ.filter (fun j => Function.update s i g j = g) =
        insert i (univ.filter fun j => s j = g) := by
      ext j
      by_cases hj : j = i
      · simp [hj]
      · simp [hj]
    rw [if_pos rfl, hset, card_insert_of_notMem (by simp [hb])]
  rw [if_neg hgb]
  by_cases hga : g = s i
  · subst hga
    have hset : univ.filter (fun j => Function.update s i b j = s i) =
        (univ.filter fun j => s j = s i).erase i := by
      ext j
      by_cases hj : j = i
      · simp [hj, hb.symm]
      · simp [hj]
    rw [if_pos rfl, hset, card_erase_of_mem (by simp)]
  · rw [if_neg hga]
    congr 1
    ext j
    by_cases hj : j = i
    · simp [hj, Ne.symm hgb, Ne.symm hga]
    · simp [hj]

end

/-! ## Loads in common -/

section
variable {G : Finset ι} {s t : ν → ι} {x y d : ι → ℕ} {a b g : ι}

omit [DecidableEq ι] in
/-- What two loads have in common is at most the second one. -/
theorem common_le : common G x d ≤ ∑ g ∈ G, d g := sum_le_sum fun _ _ => min_le_right ..

/-- What two assignments agree on is at most what their loads have in common. -/
theorem card_le_hammingDist_add_common (ht : ∀ i, t i ∈ G) :
    Fintype.card ν ≤ hammingDist s t + common G (load s) (load t) := by
  have hagree : #{i | s i = t i} ≤ common G (load s) (load t) := by
    rw [card_eq_sum_card_fiberwise (f := t) (t := G) fun i _ => ht i]
    refine sum_le_sum fun g _ => le_min (card_le_card ?_) (card_le_card ?_)
    · intro i hi
      simp only [mem_filter, mem_univ, true_and] at hi ⊢
      exact hi.1.trans hi.2
    · intro i hi
      simp only [mem_filter, mem_univ, true_and] at hi ⊢
      exact hi.2
  have hsplit := card_filter_add_card_filter_not (s := (univ : Finset ν)) fun i => s i = t i
  rw [card_univ] at hsplit
  have hdist : hammingDist s t = #{i | ¬ s i = t i} := rfl
  omega

/-- One place gets closer to its target, and no other one is affected. -/
theorem common_succ (hb : b ∈ G) (hlt : x b < d b) (hy : y b = x b + 1)
    (hother : ∀ g ∈ G, g ≠ b → min (y g) (d g) = min (x g) (d g)) :
    common G y d = common G x d + 1 := by
  rw [common, common, ← add_sum_erase G _ hb, ← add_sum_erase G (fun g => min (x g) (d g)) hb, hy]
  have hrest : ∑ g ∈ G.erase b, min (y g) (d g) = ∑ g ∈ G.erase b, min (x g) (d g) :=
    sum_congr rfl fun g hg => hother g (mem_of_mem_erase hg) (ne_of_mem_erase hg)
  rw [hrest]
  omega

/-- Swapping two members of a set of groups stays within the set. -/
theorem swap_mem (hg : g ∈ G) (hb : b ∈ G) (a : ι) : Equiv.swap g b a ∈ G ↔ a ∈ G := by
  by_cases hag : a = g
  · rw [hag, Equiv.swap_apply_left]
    exact iff_of_true hb hg
  by_cases hab : a = b
  · rw [hab, Equiv.swap_apply_right]
    exact iff_of_true hg hb
  · rw [Equiv.swap_apply_of_ne_of_ne hag hab]

/-- Targets of equal use: balanced, of the same sum and with as much in common, and different only
at places with the load of `b`. -/
structure AsGood (G : Finset ι) (x d : ι → ℕ) (b : ι) (d' : ι → ℕ) : Prop where
  even : EvenlyLoaded G d'
  sum_eq : ∑ g ∈ G, d' g = ∑ g ∈ G, d g
  common_eq : common G x d' = common G x d
  eq_of_ne : ∀ h, x h ≠ x b → d' h = d h

omit [DecidableEq ι] in
/-- An evenly loaded distribution is as good as itself. -/
theorem AsGood.refl (heven : EvenlyLoaded G d) (b : ι) : AsGood G x d b d :=
  ⟨heven, rfl, rfl, fun _ _ => rfl⟩

/-- The targets of two places with the same load may be exchanged. -/
theorem asGood_swap (heven : EvenlyLoaded G d) (hg : g ∈ G) (hb : b ∈ G) (heq : x g = x b) :
    AsGood G x d b (d ∘ Equiv.swap g b) := by
  have hx : ∀ h, x (Equiv.swap g b h) = x h := by
    intro h
    by_cases hhg : h = g
    · rw [hhg, Equiv.swap_apply_left, heq]
    by_cases hhb : h = b
    · rw [hhb, Equiv.swap_apply_right, heq]
    · rw [Equiv.swap_apply_of_ne_of_ne hhg hhb]
  refine ⟨fun h hh h' hh' => ?_, ?_, ?_, fun h hne => ?_⟩
  · exact heven _ ((swap_mem hg hb h).2 hh) _ ((swap_mem hg hb h').2 hh')
  · exact sum_equiv (Equiv.swap g b) (fun h => (swap_mem hg hb h).symm) fun h _ => rfl
  · refine sum_equiv (Equiv.swap g b) (fun h => (swap_mem hg hb h).symm) fun h _ => ?_
    rw [Function.comp_apply, hx]
  · rw [Function.comp_apply, Equiv.swap_apply_of_ne_of_ne]
    · rintro rfl
      exact hne heq
    · rintro rfl
      exact hne rfl

/-- If some place is below its target, the emptiest place may be. -/
theorem exists_above (heven : EvenlyLoaded G d) (hb : b ∈ G) (hmin : ∀ g ∈ G, x b ≤ x g)
    (hlt : ∃ g ∈ G, x g < d g) : ∃ d', AsGood G x d b d' ∧ x b < d' b := by
  by_cases hxb : x b < d b
  · exact ⟨d, .refl heven b, hxb⟩
  obtain ⟨g, hg, hxg⟩ := hlt
  have h₁ := heven g hg b hb
  have h₂ := hmin g hg
  refine ⟨_, asGood_swap heven hg hb (by omega), ?_⟩
  rw [Function.comp_apply, Equiv.swap_apply_right]
  omega

/-- If some place is above its target, the fullest place may be. -/
theorem exists_below (heven : EvenlyLoaded G d) (ha : a ∈ G) (hmax : ∀ g ∈ G, x g ≤ x a)
    (hlt : ∃ g ∈ G, d g < x g) : ∃ d', AsGood G x d a d' ∧ d' a < x a := by
  by_cases hxa : d a < x a
  · exact ⟨d, .refl heven a, hxa⟩
  obtain ⟨g, hg, hxg⟩ := hlt
  have h₁ := heven a ha g hg
  have h₂ := hmax g hg
  refine ⟨_, asGood_swap heven hg ha (by omega), ?_⟩
  rw [Function.comp_apply, Equiv.swap_apply_right]
  omega

omit [DecidableEq ι] in
/-- Loads with the sum of their targets that are not the targets are below one of them. -/
theorem exists_lt_of_sum_eq (hsum : ∑ g ∈ G, x g = ∑ g ∈ G, d g) (hne : ∃ g ∈ G, x g ≠ d g) :
    ∃ g ∈ G, x g < d g := by
  by_contra hno
  push Not at hno
  obtain ⟨g, hg, hne⟩ := hne
  exact hne ((sum_eq_sum_iff_of_le hno).1 hsum.symm g hg).symm

end

/-! ## Greedy moves -/

section
variable [DecidableEq ν]

/-- One item is taken to the emptiest place of `G`: an item that is nowhere in `G`, or, when there
is none, an item of the fullest place, if that has at least two more. -/
inductive GreedyMove (G : Finset ι) (s : ν → ι) : (ν → ι) → Prop
  | gather {i : ν} {b : ι} (hi : s i ∉ G) (hb : b ∈ G) (hmin : ∀ g ∈ G, load s b ≤ load s g) :
      GreedyMove G s (Function.update s i b)
  | even {i : ν} {b : ι} (hall : ∀ j, s j ∈ G) (hb : b ∈ G) (hmin : ∀ g ∈ G, load s b ≤ load s g)
      (hmax : ∀ g ∈ G, load s g ≤ load s (s i)) (hgap : load s b + 2 ≤ load s (s i)) :
      GreedyMove G s (Function.update s i b)

/-- Any number of greedy moves. -/
abbrev GreedyRun (G : Finset ι) : (ν → ι) → (ν → ι) → Prop := Relation.ReflTransGen (GreedyMove G)

variable {G G₀ : Finset ι} {s s' t : ν → ι} {d : ι → ℕ}

/-- A greedy move gets closer to some way to balance the loads. -/
theorem GreedyMove.exists_common (h : GreedyMove G s s') (heven : EvenlyLoaded G d)
    (hsum : ∑ g ∈ G, d g = Fintype.card ν) :
    ∃ d', EvenlyLoaded G d' ∧ ∑ g ∈ G, d' g = Fintype.card ν ∧
      common G (load s') d' = common G (load s) d + 1 := by
  cases h with
  | @gather i b hi hb hmin =>
    have hlt : ∃ g ∈ G, load s g < d g := by
      have hload := sum_load_lt hi
      rw [← hsum] at hload
      exact exists_lt_of_sum_lt hload
    obtain ⟨d', hd', hbelow⟩ := exists_above heven hb hmin hlt
    refine ⟨d', hd'.even, hd'.sum_eq.trans hsum, ?_⟩
    have hne : s i ≠ b := fun heq => hi (heq ▸ hb)
    rw [← hd'.common_eq]
    refine common_succ hb hbelow (by rw [load_update hne, if_pos rfl]) fun g hg hgb => ?_
    rw [load_update hne, if_neg hgb, if_neg]
    rintro rfl
    exact hi hg
  | @even i b hall hb hmin hmax hgap =>
    have hload : ∑ g ∈ G, load s g = ∑ g ∈ G, d g := (sum_load hall).trans hsum.symm
    have hne : s i ≠ b := by
      intro heq
      rw [heq] at hgap
      omega
    -- the loads are not balanced, so they are not the targets
    have hdiff : ∃ g ∈ G, load s g ≠ d g := by
      by_contra hno
      push Not at hno
      have h₁ := heven (s i) (hall i) b hb
      rw [← hno _ (hall i), ← hno b hb] at h₁
      omega
    obtain ⟨d₁, hd₁, hbelow⟩ := exists_above heven hb hmin (exists_lt_of_sum_eq hload hdiff)
    have hdiff₁ : ∃ g ∈ G, d₁ g ≠ load s g := ⟨b, hb, hbelow.ne'⟩
    obtain ⟨d₂, hd₂, habove⟩ := exists_below hd₁.even (hall i) hmax
      (exists_lt_of_sum_eq (hd₁.sum_eq.trans hload.symm) hdiff₁)
    have hkeep : d₂ b = d₁ b := hd₂.eq_of_ne b (by omega)
    refine ⟨d₂, hd₂.even, hd₂.sum_eq.trans (hd₁.sum_eq.trans hsum), ?_⟩
    rw [← hd₁.common_eq, ← hd₂.common_eq]
    refine common_succ hb (by omega) (by rw [load_update hne, if_pos rfl]) fun g _ hgb => ?_
    rw [load_update hne, if_neg hgb]
    split
    · next heq =>
      rw [heq]
      omega
    · rfl

/-- One assignment moves one shard at most. -/
theorem hammingDist_update_le (s : ν → ι) (i : ν) (b : ι) :
    hammingDist s (Function.update s i b) ≤ 1 := by
  refine (card_le_card (t := {i}) fun j hj => ?_).trans_eq (card_singleton i)
  rw [mem_filter] at hj
  rw [mem_singleton]
  by_contra hne
  exact hj.2 (Function.update_of_ne hne b s).symm

/-- A run of greedy moves takes no more items elsewhere than `d` needs. -/
theorem GreedyRun.hammingDist_add_common_le (h : GreedyRun G s t) (heven : EvenlyLoaded G d)
    (hsum : ∑ g ∈ G, d g = Fintype.card ν) :
    hammingDist s t + common G (load s) d ≤ Fintype.card ν := by
  induction h using Relation.ReflTransGen.head_induction_on generalizing d with
  | refl =>
    rw [hammingDist_self, zero_add, ← hsum]
    exact common_le
  | @head s s' hmove _ ih =>
    obtain ⟨d', heven', hsum', hcommon⟩ := hmove.exists_common heven hsum
    have hone : hammingDist s s' ≤ 1 := by
      cases hmove with
      | @gather i b => exact hammingDist_update_le s i b
      | @even i b => exact hammingDist_update_le s i b
    have htri := hammingDist_triangle s s' t
    have hrest := ih heven' hsum'
    omega

/-- **Greedy moves are no more than necessary**: any balanced assignment to `G` differs in at least
as many items. -/
theorem GreedyRun.hammingDist_le (h : GreedyRun G s t) {u : ν → ι} (hu : ∀ i, u i ∈ G)
    (heven : EvenlyLoaded G (load u)) : hammingDist s t ≤ hammingDist s u := by
  have h₁ := h.hammingDist_add_common_le heven (sum_load hu)
  have h₂ := card_le_hammingDist_add_common (s := s) hu
  omega

end

/-! ## What greedy moves leave alone -/

section
variable [DecidableEq ν] {G G₀ : Finset ι} {s s' t : ν → ι}

/-- The places of `G₀` have no less than the others, up to 1. -/
def Ahead (G₀ G : Finset ι) (x : ι → ℕ) : Prop := ∀ g ∈ G₀, ∀ h ∈ G, x h ≤ x g + 1

/-- A move takes nothing to a place that is ahead. -/
theorem Ahead.move (h : Ahead G₀ G (load s)) (hall : ∀ i, s i ∈ G) (hmove : GreedyMove G s s') :
    Ahead G₀ G (load s') ∧ (∀ i, s' i ∈ G) ∧ ∀ i, s' i ≠ s i → s' i ∉ G₀ := by
  cases hmove with
  | @gather i b hi => exact absurd (hall i) hi
  | @even i b _ hb hmin hmax hgap =>
    have hne : s i ≠ b := by
      intro heq
      rw [heq] at hgap
      omega
    have hb₀ : b ∉ G₀ := by
      intro hb₀
      have hle := h b hb₀ (s i) (hall i)
      omega
    have hupper : ∀ a ∈ G, load (Function.update s i b) a ≤ load s (s i) := by
      intro a ha
      rw [load_update hne]
      have hle := hmax a ha
      split_ifs
      · omega
      · omega
      · exact hle
    have hlower : ∀ g ∈ G₀, load s (s i) ≤ load (Function.update s i b) g + 1 := by
      intro g hg
      have hgb : g ≠ b := fun heq => hb₀ (heq ▸ hg)
      rw [load_update hne, if_neg hgb]
      split
      · omega
      · exact h g hg (s i) (hall i)
    refine ⟨fun g hg a ha => (hupper a ha).trans (hlower g hg), fun j => ?_, fun j hj => ?_⟩
    · by_cases hj : j = i
      · rw [hj, Function.update_self]
        exact hb
      · rw [Function.update_of_ne hj]
        exact hall j
    · by_cases hji : j = i
      · rw [hji, Function.update_self]
        exact hb₀
      · exact absurd (Function.update_of_ne hji b s) hj

/-- **Items are only taken to places that were behind**, when all of them start in places that are
ahead. -/
theorem GreedyRun.notMem_of_ahead (h : GreedyRun G s t) (hahead : Ahead G₀ G (load s))
    (hall : ∀ i, s i ∈ G) : ∀ i, t i ≠ s i → t i ∉ G₀ := by
  induction h using Relation.ReflTransGen.head_induction_on with
  | refl => exact fun i hi => absurd rfl hi
  | @head s s' hmove _ ih =>
    obtain ⟨hahead', hall', hmoved⟩ := hahead.move hall hmove
    intro i hi
    by_cases hi' : t i = s' i
    · rw [hi'] at hi ⊢
      exact hmoved i hi
    · exact ih hahead' hall' i hi'

/-- While the loads are even, a move takes an item that is nowhere in `G`. -/
theorem EvenlyLoaded.move (h : EvenlyLoaded G (load s)) (hmove : GreedyMove G s s') :
    EvenlyLoaded G (load s') ∧ ∀ i, s' i ≠ s i → s i ∉ G ∧ s' i ∈ G := by
  cases hmove with
  | @gather i b hi hb hmin =>
    have hne : s i ≠ b := fun heq => hi (heq ▸ hb)
    refine ⟨fun g hg a ha => ?_, fun j hj => ?_⟩
    · have hga := h g hg a ha
      have hle := hmin a ha
      have hgi : g ≠ s i := fun heq => hi (heq ▸ hg)
      have hai : a ≠ s i := fun heq => hi (heq ▸ ha)
      rw [load_update hne, load_update hne, if_neg hgi, if_neg hai]
      split_ifs with hgb hab
      · omega
      · omega
      · next hab =>
        rw [hab] at hga
        omega
      · exact hga
    · obtain rfl : j = i := by
        by_contra hji
        exact hj (Function.update_of_ne hji b s)
      rw [Function.update_self]
      exact ⟨hi, hb⟩
  | @even i b hall hb _ _ hgap =>
    have hle := h (s i) (hall i) b hb
    omega

/-- **Only items that were nowhere in `G` are taken**, when the loads are even from the start. -/
theorem GreedyRun.notMem_of_even (h : GreedyRun G s t) (heven : EvenlyLoaded G (load s)) :
    ∀ i, t i ≠ s i → s i ∉ G := by
  induction h using Relation.ReflTransGen.head_induction_on with
  | refl => exact fun i hi => absurd rfl hi
  | @head s s' hmove _ ih =>
    obtain ⟨heven', hmoved⟩ := heven.move hmove
    intro i hi
    by_cases hi' : s' i = s i
    · rw [← hi'] at hi ⊢
      exact ih heven' i hi
    · exact (hmoved i hi').1

end

/-! ## Balanced targets -/

/-- Any number of items can be balanced over the places of `G`. -/
theorem exists_evenlyLoaded {G : Finset ι} (hG : G.Nonempty) (n : ℕ) :
    ∃ d : ι → ℕ, EvenlyLoaded G d ∧ ∑ g ∈ G, d g = n := by
  induction n with
  | zero => exact ⟨fun _ => 0, fun _ _ _ _ => Nat.zero_le _, sum_const_zero⟩
  | succ n ih =>
    obtain ⟨d, heven, hsum⟩ := ih
    obtain ⟨b, hb, hmin⟩ := G.exists_min_image d hG
    refine ⟨Function.update d b (d b + 1), fun g hg h hh => ?_, ?_⟩
    · have hgh := heven g hg h hh
      have hle := hmin h hh
      rw [Function.update_apply, Function.update_apply]
      split_ifs with hgb hhb
      · omega
      · omega
      · next hhb =>
        rw [hhb] at hgh
        omega
      · exact hgh
    · rw [sum_update_of_mem hb, ← hsum, sum_eq_add_sum_sdiff_singleton_of_mem hb]
      omega

end DistLabs.Lib
