import DistLabs.Lib.Balance
import DistLabs.Shardctrler.Server

/-!
# Rebalancing

`adjustShards` keeps the shards of every group in a map (`Tally`), in which `findMaxAndMinGid`
finds the group to take a shard from and the one to give it to (`Seen`). One round of its loop is a
greedy move of `Lib.Balance`, so the loop ends, with all shards in evenly loaded groups
(`adjustShards_spec`).
-/

namespace DistLabs.Shardctrler

open Lib Finset

/-! ## The search for the largest and the smallest group -/

/-- The results of `findMaxAndMinGid` after it has visited the groups of `P`, whose sizes are
`m`. -/
structure Seen (m : Gid → Nat) (P : Gid → Prop) (x : Extremes) : Prop where
  /-- Group 0 is the largest one as soon as it is not empty. -/
  zero : x.maxGid = 0 ↔ P 0 ∧ 0 < m 0
  max : x.maxGid ≠ 0 → (∀ g, P g → g ≠ 0 → (m g : Int) ≤ x.mx) ∧
    (P x.maxGid ∧ x.mx = m x.maxGid ∨ x.maxGid = -1 ∧ x.mx = -2 ^ 63 ∧ ∀ g, P g → g = 0)
  min : ∀ g, P g → g ≠ 0 → x.mn ≤ (m g : Int)
  min_mem : x.minGid ≠ 0 ∧ P x.minGid ∧ x.mn = m x.minGid ∨
    x.minGid = -1 ∧ x.mn = 2 ^ 63 - 1 ∧ ∀ g, P g → g = 0

variable {cnt : Counts} {m : Gid → Nat} {P : Gid → Prop} {x : Extremes}

/-- One more group is visited. Sizes are below the initial value of the minimum. -/
theorem Seen.visit (h : Seen m P x) (hm : ∀ g, (cnt[g]?.getD []).length = m g)
    (hlt : ∀ g, m g < 2 ^ 62) (gid : Gid) : Seen m (fun g => P g ∨ g = gid) (x.visit cnt gid) := by
  obtain ⟨hzero, hmax, hmin, hmem⟩ := h
  have hgid := hlt gid
  simp only [Extremes.visit, hm]
  constructor
  · grind
  · grind
  · grind
  · grind

/-- Nothing has been visited. -/
theorem Seen.init : Seen m (fun _ => False) ⟨-1, -2 ^ 63, -1, 2 ^ 63 - 1⟩ := by
  refine ⟨?_, fun _ => ⟨fun _ h => h.elim, .inr ⟨rfl, rfl, fun _ h => h.elim⟩⟩, fun _ h => h.elim,
    .inr ⟨rfl, rfl, fun _ h => h.elim⟩⟩
  simp

/-- `findMaxAndMinGid` visits all groups. -/
theorem findMaxAndMinGid_seen (o : RangeOrder Gid) (hm : ∀ g, (cnt[g]?.getD []).length = m g)
    (hlt : ∀ g, m g < 2 ^ 62) : Seen m (· ∈ cnt) (findMaxAndMinGid o cnt) := by
  have hfold : ∀ (l : List Gid) (P : Gid → Prop) (x : Extremes), Seen m P x →
      Seen m (fun g => P g ∨ g ∈ l) (l.foldl (Extremes.visit cnt) x) := by
    intro l
    induction l with
    | nil => simp
    | cons gid l ih =>
      intro P x h
      have hrun := ih _ _ (h.visit hm hlt gid)
      simpa only [List.mem_cons, or_assoc, List.foldl_cons] using hrun
  have hrun := hfold (((cnt.range o).map (·.1)).insertionSort (· ≤ ·)) _ _ Seen.init
  have hmem : ∀ g, g ∈ ((cnt.range o).map (·.1)).insertionSort (· ≤ ·) ↔ g ∈ cnt := by
    intro g
    rw [List.mem_insertionSort, GoMap.map_fst_range, (o.perm _).mem_iff, Std.ExtTreeMap.mem_keys]
  simp only [hmem, false_or] at hrun
  exact hrun

/-! ## The shards of every group -/

/-- `cnt` holds the shards of every group under the assignment `s`, and its keys other than 0 are
the groups `G` to balance. If there is none, the smallest group is -1. -/
structure Tally (G : Finset Gid) (cnt : Counts) (s : Fin NShards → Gid) : Prop where
  zero : 0 ∉ G
  nonempty : G.Nonempty
  shards : ∀ (g : Gid) (i : Fin NShards), i ∈ cnt[g]?.getD [] ↔ s i = g
  nodup : ∀ g : Gid, (cnt[g]?.getD []).Nodup
  keys : (∀ g, g ≠ 0 → (g ∈ cnt ↔ g ∈ G)) ∨ (∀ g, g ∈ cnt → g = 0) ∧ G = {-1}

namespace Tally

variable {G : Finset Gid} {s : Fin NShards → Gid}

/-- The lists of the map are as long as the groups' loads. -/
theorem length_eq (h : Tally G cnt s) (g : Gid) : (cnt[g]?.getD []).length = load s g := by
  rw [← List.toFinset_card_of_nodup (h.nodup g), load]
  congr 1
  ext i
  simp [h.shards]

/-- A shard is in a group that has an entry. -/
theorem mem_cnt (h : Tally G cnt s) (i : Fin NShards) : s i ∈ cnt := by
  have hi := (h.shards (s i) i).2 rfl
  rw [Std.ExtTreeMap.mem_iff_isSome_getElem?]
  cases hcnt : cnt[s i]? with
  | none =>
    rw [hcnt] at hi
    cases hi
  | some l => rfl

/-- A shard that is not in group 0 is in a group of `G`. -/
theorem mem_of_ne (h : Tally G cnt s) {i : Fin NShards} (hi : s i ≠ 0) : s i ∈ G := by
  rcases h.keys with hkeys | ⟨hkeys, -⟩
  · exact (hkeys _ hi).1 (h.mem_cnt i)
  · exact absurd (hkeys _ (h.mem_cnt i)) hi

/-- `findMaxAndMinGid` looks at all groups of the map. -/
theorem seen (h : Tally G cnt s) (o : RangeOrder Gid) :
    Seen (load s) (· ∈ cnt) (findMaxAndMinGid o cnt) := by
  refine findMaxAndMinGid_seen o h.length_eq fun g => ?_
  have hle := load_le_card s g
  rw [Fintype.card_fin] at hle
  exact hle.trans_lt (by decide)

/-- The smallest group is one of `G`, and none of `G` is smaller. -/
theorem minGid (h : Tally G cnt s) (o : RangeOrder Gid) :
    (findMaxAndMinGid o cnt).minGid ∈ G ∧
      ∀ g ∈ G, load s (findMaxAndMinGid o cnt).minGid ≤ load s g := by
  have hseen := h.seen o
  rcases hseen.min_mem with ⟨hne, hmem, hmn⟩ | ⟨heq, -, hall⟩
  · rcases h.keys with hkeys | ⟨hkeys, -⟩
    · refine ⟨(hkeys _ hne).1 hmem, fun g hg => ?_⟩
      have hg0 : g ≠ 0 := fun hg0 => h.zero (hg0 ▸ hg)
      have hle := hseen.min g ((hkeys g hg0).2 hg) hg0
      rw [hmn] at hle
      exact Int.ofNat_le.1 hle
    · exact absurd (hkeys _ hmem) hne
  · rcases h.keys with hkeys | ⟨-, hG⟩
    · obtain ⟨g, hg⟩ := h.nonempty
      have hg0 : g ≠ 0 := fun hg0 => h.zero (hg0 ▸ hg)
      exact absurd (hall g ((hkeys g hg0).2 hg)) hg0
    · rw [heq, hG]
      simp

/-- If group 0 is not the largest one, it is empty. -/
theorem all_mem (h : Tally G cnt s) (o : RangeOrder Gid)
    (hmax : (findMaxAndMinGid o cnt).maxGid ≠ 0) :
    ∀ i, s i ∈ G := by
  intro i
  refine h.mem_of_ne fun hi => hmax ((h.seen o).zero.2 ⟨?_, ?_⟩)
  · rw [← hi]
    exact h.mem_cnt i
  · rw [← hi]
    exact load_pos

/-- Then all groups of `G` have an entry. -/
theorem mem_cnt_of_mem (h : Tally G cnt s) (hall : ∀ i, s i ∈ G) {g : Gid} (hg : g ∈ G) :
    g ∈ cnt := by
  have hne : ∀ g ∈ G, g ≠ 0 := fun g hg hg0 => h.zero (hg0 ▸ hg)
  rcases h.keys with hkeys | ⟨hkeys, -⟩
  · exact (hkeys g (hne g hg)).2 hg
  · exact absurd (hkeys _ (h.mem_cnt 0)) (hne _ (hall 0))

/-- The largest and the smallest group bound the others. -/
theorem bounds (h : Tally G cnt s) (o : RangeOrder Gid)
    (hmax : (findMaxAndMinGid o cnt).maxGid ≠ 0) :
    (findMaxAndMinGid o cnt).mn = load s (findMaxAndMinGid o cnt).minGid ∧
      (findMaxAndMinGid o cnt).mx = load s (findMaxAndMinGid o cnt).maxGid ∧
      ∀ g ∈ G, load s g ≤ load s (findMaxAndMinGid o cnt).maxGid := by
  have hall := h.all_mem o hmax
  have hseen := h.seen o
  have hne : ∀ g ∈ G, g ≠ 0 := fun g hg hg0 => h.zero (hg0 ▸ hg)
  have hsome : ¬ ∀ g, g ∈ cnt → g = 0 := fun hno => hne _ (hall 0) (hno _ (h.mem_cnt 0))
  obtain ⟨hle, hmem⟩ := hseen.max hmax
  obtain ⟨-, hmx⟩ := hmem.resolve_right fun hno => hsome hno.2.2
  obtain ⟨-, -, hmn⟩ := hseen.min_mem.resolve_right fun hno => hsome hno.2.2
  refine ⟨hmn, hmx, fun g hg => ?_⟩
  have hgm := hle g (h.mem_cnt_of_mem hall hg) (hne g hg)
  rw [hmx] at hgm
  exact Int.ofNat_le.1 hgm

/-- The loop ends with evenly loaded groups. -/
theorem evenlyLoaded (h : Tally G cnt s) (o : RangeOrder Gid)
    (hmax : (findMaxAndMinGid o cnt).maxGid ≠ 0)
    (hdone : (findMaxAndMinGid o cnt).mx - (findMaxAndMinGid o cnt).mn ≤ 1) :
    EvenlyLoaded G (load s) := by
  intro g hg a ha
  obtain ⟨hmn, hmx, hle⟩ := h.bounds o hmax
  have hg' := hle g hg
  have ha' := (h.minGid o).2 a ha
  omega

/-- A shard is moved to a group of `G`. -/
theorem move (h : Tally G cnt s) {a b : Gid} {i : Fin NShards} {rest : List (Fin NShards)}
    (hcnt : cnt[a]?.getD [] = i :: rest) (hb : b ∈ G) (hab : a ≠ b) :
    Tally G ((cnt.insert a rest).insert b ((cnt.insert a rest)[b]?.getD [] ++ [i]))
      (Function.update s i b) := by
  have hi : s i = a := (h.shards a i).1 (by rw [hcnt]; exact List.mem_cons_self)
  have hrest : i ∉ rest := by
    have hnodup := h.nodup a
    rw [hcnt] at hnodup
    exact (List.nodup_cons.1 hnodup).1
  have hlook : ∀ g,
    ((cnt.insert a rest).insert b ((cnt.insert a rest)[b]?.getD [] ++ [i]))[g]?.getD [] =
      if g = b then cnt[b]?.getD [] ++ [i] else if g = a then rest else cnt[g]?.getD [] := by
    intro g
    rw [GoMap.getElem?_insert, GoMap.getElem?_insert, GoMap.getElem?_insert, if_neg hab.symm]
    split
    · rfl
    · split <;> rfl
  refine ⟨h.zero, h.nonempty, fun g j => ?_, fun g => ?_, .inl fun g hg => ?_⟩
  · rw [hlook, Function.update_apply]
    have ha := h.shards a j
    have hg := h.shards g j
    rw [hcnt, List.mem_cons] at ha
    by_cases hj : j = i
    · grind
    · grind
  · rw [hlook]
    have hb' := h.shards b i
    have ha := h.nodup a
    have hg := h.nodup g
    rw [hcnt] at ha
    grind
  · have ha : a ∈ cnt := hi ▸ h.mem_cnt i
    simp only [Std.ExtTreeMap.mem_insert, Std.LawfulEqCmp.compare_eq_iff_eq]
    rcases h.keys with hkeys | ⟨hkeys, hG⟩
    · have hkg := hkeys g hg
      grind
    · have ha0 := hkeys a ha
      have hkg := hkeys g
      rw [hG, mem_singleton] at hb ⊢
      grind

/-- One round of the loop is a greedy move. -/
theorem round (h : Tally G cnt s) (o : RangeOrder Gid)
    (hgo : ¬ ((findMaxAndMinGid o cnt).maxGid ≠ 0 ∧
      (findMaxAndMinGid o cnt).mx - (findMaxAndMinGid o cnt).mn ≤ 1)) :
    ∃ i rest, cnt[(findMaxAndMinGid o cnt).maxGid]?.getD [] = i :: rest ∧
      (findMaxAndMinGid o cnt).maxGid ≠ (findMaxAndMinGid o cnt).minGid ∧
      GreedyMove G s (Function.update s i (findMaxAndMinGid o cnt).minGid) := by
  obtain ⟨hmem, hmin⟩ := h.minGid o
  have hfirst : ∀ g, 0 < load s g → ∃ i rest, cnt[g]?.getD [] = i :: rest ∧ s i = g := by
    intro g hpos
    obtain ⟨i, rest, hcnt⟩ := List.exists_cons_of_length_pos (h.length_eq g ▸ hpos)
    exact ⟨i, rest, hcnt, (h.shards g i).1 (by rw [hcnt]; exact List.mem_cons_self)⟩
  by_cases hmax : (findMaxAndMinGid o cnt).maxGid = 0
  · -- group 0 is emptied first
    obtain ⟨i, rest, hcnt, hi⟩ := hfirst 0 ((h.seen o).zero.1 hmax).2
    rw [hmax]
    refine ⟨i, rest, hcnt, fun heq => h.zero (heq ▸ hmem), .gather ?_ hmem hmin⟩
    rw [hi]
    exact h.zero
  · obtain ⟨hmn, hmx, hle⟩ := h.bounds o hmax
    have hgap : load s (findMaxAndMinGid o cnt).minGid + 2 ≤
        load s (findMaxAndMinGid o cnt).maxGid := by
      by_contra hgap
      exact hgo ⟨hmax, by omega⟩
    obtain ⟨i, rest, hcnt, hi⟩ := hfirst (findMaxAndMinGid o cnt).maxGid (by omega)
    refine ⟨i, rest, hcnt, fun heq => ?_, .even (h.all_mem o hmax) hmem hmin ?_ ?_⟩
    · rw [heq] at hgap
      omega
    · rw [hi]
      exact hle
    · rw [hi]
      exact hgap

/-- **The loop ends**: after at most as many moves as some balanced assignment needs. -/
theorem rebalance_spec (o : Nat → RangeOrder Gid) {fuel : Nat} {d : Gid → Nat} (h : Tally G cnt s)
    (heven : EvenlyLoaded G d) (hsum : ∑ g ∈ G, d g = NShards)
    (hfuel : NShards < fuel + common G (load s) d) :
    ∃ t, rebalance o fuel cnt s = some t ∧ GreedyRun G s t ∧ (∀ i, t i ∈ G) ∧
      EvenlyLoaded G (load t) := by
  induction fuel generalizing cnt s d with
  | zero =>
    have hle := common_le (G := G) (x := load s) (d := d)
    omega
  | succ fuel ih =>
    simp only [rebalance]
    split
    · next hdone => exact ⟨s, rfl, .refl, h.all_mem _ hdone.1, h.evenlyLoaded _ hdone.1 hdone.2⟩
    · next hgo =>
      obtain ⟨i, rest, hcnt, hne, hmove⟩ := h.round _ hgo
      obtain ⟨d', heven', hsum', hcommon⟩ := hmove.exists_common heven (by rwa [Fintype.card_fin])
      rw [Fintype.card_fin] at hsum'
      obtain ⟨t, ht, hrun, hall, hload⟩ :=
        ih (h.move hcnt (h.minGid _).1 hne) heven' hsum' (by omega)
      refine ⟨t, ?_, .head hmove hrun, hall, hload⟩
      simp only [hcnt]
      exact ht

end Tally

/-! ## `adjustShards` -/

/-- The second loop of `adjustShards` collects the shards of every group. -/
theorem getD_foldl_append (newShards : Fin NShards → Gid) (l : List (Fin NShards)) (cnt : Counts)
    (g : Gid) :
    (l.foldl (fun cnt i => cnt.insert (newShards i) (cnt[newShards i]?.getD [] ++ [i]))
      cnt)[g]?.getD [] =
      cnt[g]?.getD [] ++ l.filter (newShards · = g) := by
  induction l generalizing cnt with
  | nil => simp
  | cons i l ih =>
    rw [List.foldl_cons, ih, GoMap.getElem?_insert, List.filter_cons]
    by_cases hg : newShards i = g
    · simp [hg]
    · simp [hg, Ne.symm hg]

/-- The groups that the loop over the shards has put into the map. -/
theorem mem_foldl_append (newShards : Fin NShards → Gid) (l : List (Fin NShards)) (cnt : Counts)
    (g : Gid) :
    g ∈ l.foldl (fun cnt i => cnt.insert (newShards i) (cnt[newShards i]?.getD [] ++ [i])) cnt ↔
      g ∈ cnt ∨ ∃ i ∈ l, newShards i = g := by
  induction l generalizing cnt with
  | nil => simp
  | cons i l ih =>
    rw [List.foldl_cons, ih, Std.ExtTreeMap.mem_insert, Std.LawfulEqCmp.compare_eq_iff_eq]
    simp only [List.mem_cons, exists_eq_or_imp]
    tauto

/-- The groups other than 0 of the new config, and those that a `Move` gave a shard. -/
def occurring (newGroups : GoMap Gid (List String)) (newShards : Fin NShards → Gid) : Finset Gid :=
  (newGroups.keys.toFinset ∪ univ.image newShards).erase 0

/-- The groups that `adjustShards` balances. If there is none but group 0, the shards go to group
-1. -/
def targets (newGroups : GoMap Gid (List String)) (newShards : Fin NShards → Gid) : Finset Gid :=
  if occurring newGroups newShards = ∅ then {-1} else occurring newGroups newShards

section
variable {newGroups : GoMap Gid (List String)} {newShards : Fin NShards → Gid} {g : Gid}

/-- The groups other than 0 that are new or own a shard. -/
@[simp] theorem mem_occurring :
    g ∈ occurring newGroups newShards ↔ g ≠ 0 ∧ (g ∈ newGroups ∨ ∃ i, newShards i = g) := by
  simp [occurring]

theorem ne_empty_of_mem (hg : g ∈ newGroups) : newGroups ≠ ∅ :=
  fun hempty => Std.ExtTreeMap.eq_empty_iff_forall_not_mem.1 hempty g hg

theorem exists_mem_of_ne_empty (hne : newGroups ≠ ∅) : ∃ g, g ∈ newGroups := by
  by_contra hno
  exact hne (Std.ExtTreeMap.eq_empty_iff_forall_not_mem.2 fun g hg => hno ⟨g, hg⟩)

/-- The usual case: there are groups, and every shard is in one of them or in group 0. -/
theorem mem_targets (hne : newGroups ≠ ∅) (hzero : 0 ∉ newGroups)
    (hmem : ∀ i, newShards i = 0 ∨ newShards i ∈ newGroups) :
    g ∈ targets newGroups newShards ↔ g ∈ newGroups := by
  have hiff : ∀ g, g ∈ occurring newGroups newShards ↔ g ∈ newGroups := by
    intro g
    rw [mem_occurring]
    constructor
    · rintro ⟨hg, hg' | ⟨i, rfl⟩⟩
      · exact hg'
      · exact (hmem i).resolve_left hg
    · exact fun hg => ⟨fun hg0 => hzero (hg0 ▸ hg), .inl hg⟩
  unfold targets
  split
  · next hempty =>
    obtain ⟨k, hk⟩ := exists_mem_of_ne_empty hne
    rw [← hiff, hempty] at hk
    cases hk
  · exact hiff g

end

/-- The map that `adjustShards` starts with. -/
theorem tally_init (o : RangeOrder Gid) (newGroups : GoMap Gid (List String))
    (newShards : Fin NShards → Gid) :
    Tally (targets newGroups newShards)
      ((List.finRange NShards).foldl
        (fun cnt i => cnt.insert (newShards i) (cnt[newShards i]?.getD [] ++ [i]))
        ((newGroups.range o).foldl (fun cnt e => cnt.insert e.1 []) ∅)) newShards := by
  have hget : ∀ g : Gid,
    ((newGroups.range o).foldl (fun cnt e => cnt.insert e.1 []) ∅ : Counts)[g]? =
      newGroups[g]?.map fun _ => [] := by
    intro g
    rw [GoMap.getElem?_foldl_range o (fun _ _ => ([] : List (Fin NShards))),
      Std.ExtTreeMap.getElem?_empty, Option.or_none]
  have hlook : ∀ g : Gid,
    ((newGroups.range o).foldl (fun cnt e => cnt.insert e.1 []) ∅ : Counts)[g]?.getD [] =
      [] := by
    intro g
    rw [hget]
    cases newGroups[g]? <;> rfl
  have hmem : ∀ g : Gid,
    g ∈ ((newGroups.range o).foldl (fun cnt e => cnt.insert e.1 []) ∅ : Counts) ↔
      g ∈ newGroups := by
    intro g
    rw [Std.ExtTreeMap.mem_iff_isSome_getElem?, hget, Option.isSome_map,
      Std.ExtTreeMap.mem_iff_isSome_getElem?]
  refine ⟨?_, ?_, fun g i => ?_, fun g => ?_, ?_⟩
  · unfold targets
    split
    · simp
    · simp
  · unfold targets
    split
    · simp
    · next hne => exact nonempty_iff_ne_empty.2 hne
  · rw [getD_foldl_append, hlook]
    simp
  · rw [getD_foldl_append, hlook, List.nil_append]
    exact (List.nodup_finRange NShards).filter _
  · simp only [mem_foldl_append, hmem, List.mem_finRange, true_and, targets]
    split
    · next hempty =>
      refine .inr ⟨fun g hg => ?_, rfl⟩
      by_contra hg0
      have hgids : g ∈ occurring newGroups newShards := mem_occurring.2 ⟨hg0, hg⟩
      rw [hempty] at hgids
      cases hgids
    · refine .inl fun g hg => ?_
      simp only [mem_occurring, hg, ne_eq, not_false_eq_true, true_and]

/-- **`adjustShards` ends**, with evenly loaded groups, and what it does is a run of greedy
moves. -/
theorem adjustShards_spec (o : Orders) {newGroups : GoMap Gid (List String)}
    (newShards : Fin NShards → Gid) (hne : newGroups ≠ ∅) :
    ∃ t, adjustShards o newGroups newShards = some t ∧
      GreedyRun (targets newGroups newShards) newShards t ∧
        (∀ i, t i ∈ targets newGroups newShards) ∧
      EvenlyLoaded (targets newGroups newShards) (load t) := by
  have h := tally_init o.newGroups newGroups newShards
  obtain ⟨d, heven, hsum⟩ := exists_evenlyLoaded h.nonempty NShards
  unfold adjustShards
  rw [if_neg fun hempty => hne (Std.ExtTreeMap.isEmpty_iff.1 hempty)]
  refine h.rebalance_spec o.cnt heven hsum ?_
  have hpos : NShards < NShards + NShards * NShards := by decide
  omega

/-- If every shard starts in group 0 or in one of the new groups, the groups that are evenly loaded
are the new ones. -/
theorem adjustShards_groups (o : Orders) {newGroups : GoMap Gid (List String)}
    {newShards : Fin NShards → Gid} (hne : newGroups ≠ ∅) (hzero : 0 ∉ newGroups)
    (hmem : ∀ i, newShards i = 0 ∨ newShards i ∈ newGroups) :
    ∃ t, adjustShards o newGroups newShards = some t ∧
      GreedyRun (targets newGroups newShards) newShards t ∧ (∀ i, t i ∈ newGroups) ∧
      ∀ g ∈ newGroups, ∀ h ∈ newGroups, load t g ≤ load t h + 1 := by
  obtain ⟨t, ht, hrun, hall, heven⟩ := adjustShards_spec o newShards hne
  have htargets : ∀ g, g ∈ targets newGroups newShards ↔ g ∈ newGroups := fun g =>
    mem_targets hne hzero hmem
  refine ⟨t, ht, hrun, fun i => (htargets _).1 (hall i), fun g hg h hh => ?_⟩
  exact heven g ((htargets g).2 hg) h ((htargets h).2 hh)

/-- **Rebalancing balances**: if every shard starts in group 0 or in one of the new groups, all of
them end in new groups, whose sizes differ by at most 1. -/
theorem adjustShards_balances (o : Orders) (newGroups : GoMap Gid (List String))
    (newShards : Fin NShards → Gid) (hne : newGroups ≠ ∅) (hzero : 0 ∉ newGroups)
    (hmem : ∀ i, newShards i = 0 ∨ newShards i ∈ newGroups) :
    ∃ t, adjustShards o newGroups newShards = some t ∧ (∀ i, t i ∈ newGroups) ∧
      ∀ g ∈ newGroups, ∀ h ∈ newGroups, load t g ≤ load t h + 1 := by
  obtain ⟨t, ht, -, hall, heven⟩ := adjustShards_groups o hne hzero hmem
  exact ⟨t, ht, hall, heven⟩

/-- Two groups, one with all the shards and one with a negative id. -/
theorem adjustShards_balances_two :
    ∃ t, adjustShards ⟨.increasing, .increasing, .increasing, fun _ => .increasing⟩
        (({} : GoMap Gid (List String)).insert 1 [] |>.insert (-7) []) (fun _ => 1) = some t ∧
      (∀ i, t i ∈ (({} : GoMap Gid (List String)).insert 1 [] |>.insert (-7) [])) ∧
      ∀ g ∈ (({} : GoMap Gid (List String)).insert 1 [] |>.insert (-7) []),
        ∀ h ∈ (({} : GoMap Gid (List String)).insert 1 [] |>.insert (-7) []),
          load t g ≤ load t h + 1 :=
  adjustShards_balances _ _ _ (by decide) (by decide) fun _ => .inr (by decide)

end DistLabs.Shardctrler
