import Mathlib.Data.List.Perm.Basic
import Mathlib.Data.List.Nodup
import Mathlib.Data.List.Infix

/-!
# Orders of calls

A list of calls and returns, in the order of time; `mate a` is the return of a call `a`, and
nothing for a return. One way to put the calls in order takes them out of the list one by one, each
with its return, and only calls that no return stands before (`Takes`). The orders that one gets so
are those in which no call comes before another one that had returned when it was made
(`takes_iff`).
-/

namespace DistLabs.Lib

variable {α σ : Type} [DecidableEq α]

/-- The list without a call and its return. -/
def without (mate : α → Option α) (l : List α) (a : α) : List α :=
  l.filter fun c => c ≠ a ∧ mate a ≠ some c

/-- Every call has its own return, which is later, and every return has a call. -/
structure Paired (mate : α → Option α) (l : List α) : Prop where
  nodup : l.Nodup
  later : ∀ a m, a ∈ l → mate a = some m → [a, m].Sublist l
  ret : ∀ a m, a ∈ l → mate a = some m → mate m = none
  inj : ∀ a b m, a ∈ l → b ∈ l → mate a = some m → mate b = some m → a = b
  called : ∀ m ∈ l, mate m = none → ∃ a ∈ l, mate a = some m

/-- Calls are taken out of a list, each executed in the state that the calls before it have
left. -/
inductive Takes (mate : α → Option α) (run : σ → α → Option σ) :
    List α → σ → List α → List α → σ → Prop where
  | nil {l : List α} {s : σ} : Takes mate run l s [] l s
  | cons {l xs ys order l' : List α} {s s' t : σ} {a : α} (hl : l = xs ++ a :: ys)
      (hxs : ∀ x ∈ xs, (mate x).isSome) (ha : (mate a).isSome) (hrun : run s a = some s')
      (h : Takes mate run (without mate l a) s' order l' t) : Takes mate run l s (a :: order) l' t

section
variable {mate : α → Option α} {run : σ → α → Option σ} {l l' xs ys order : List α} {s s' t : σ}
  {a b m : α}

/-! ## Before and after -/

omit [DecidableEq α] in
/-- What comes after an element. -/
theorem mem_of_pair_sublist (hnodup : (xs ++ a :: ys).Nodup) (h : [a, b].Sublist (xs ++ a :: ys)) :
    b ∈ ys := by
  obtain ⟨hays, haxs⟩ : a ∉ ys ∧ a ∉ xs := by
    have := List.nodup_middle.1 hnodup
    rw [List.nodup_cons, List.mem_append, not_or] at this
    exact ⟨this.1.2, this.1.1⟩
  obtain ⟨l₁, l₂, heq, h₁, h₂⟩ := List.sublist_append_iff.1 h
  cases l₁ with
  | nil =>
    rw [List.nil_append] at heq
    subst heq
    cases h₂ with
    | cons _ h₂ => exact absurd (h₂.subset (by simp)) hays
    | cons_cons _ h₂ => exact h₂.subset (by simp)
  | cons c l₁ =>
    obtain ⟨rfl, -⟩ := List.cons.inj heq
    exact absurd (h₁.subset (by simp)) haxs

omit [DecidableEq α] in
/-- What comes before an element. -/
theorem pair_sublist_iff (hnodup : (xs ++ a :: ys).Nodup) :
    [b, a].Sublist (xs ++ a :: ys) ↔ b ∈ xs := by
  constructor
  · intro h
    have hrev := h.reverse
    have hnodup' := List.nodup_reverse.2 hnodup
    simp only [List.reverse_append, List.reverse_cons, List.append_assoc, List.reverse_nil,
      List.nil_append, List.singleton_append] at hrev hnodup'
    exact List.mem_reverse.1 (mem_of_pair_sublist hnodup' hrev)
  · intro hb
    exact (List.singleton_sublist.2 hb).append (List.singleton_sublist.2 List.mem_cons_self)

/-- In an increasing list the smaller element comes first. -/
theorem pair_sublist_range {a b n : Nat} : [a, b].Sublist (List.range n) ↔ a < b ∧ b < n := by
  constructor
  · intro h
    have hpair := List.pairwise_lt_range.sublist h
    exact ⟨by simpa using hpair, List.mem_range.1 (h.subset (by simp))⟩
  · rintro ⟨hlt, hb⟩
    obtain ⟨xs, ys, hsplit⟩ := List.append_of_mem (List.mem_range.2 hb)
    have hnodup : (xs ++ b :: ys).Nodup := hsplit ▸ List.nodup_range
    have hsorted : (xs ++ b :: ys).Pairwise (· < ·) := hsplit ▸ List.pairwise_lt_range
    have ha : a ∈ xs ++ b :: ys := hsplit ▸ List.mem_range.2 (hlt.trans hb)
    rw [hsplit, pair_sublist_iff hnodup]
    rcases List.mem_append.1 ha with ha | ha
    · exact ha
    · rcases List.mem_cons.1 ha with rfl | ha
      · exact absurd hlt (Nat.lt_irrefl _)
      · have := (List.pairwise_cons.1 (List.pairwise_append.1 hsorted).2.1).1 a ha
        omega

/-! ## Taking out a call -/

/-- What is left when a call is taken out with its mate. -/
theorem mem_without : b ∈ without mate l a ↔ b ∈ l ∧ b ≠ a ∧ mate a ≠ some b := by
  rw [without, List.mem_filter, decide_eq_true_iff]

/-- Taking a call out does not change the order of the others. -/
theorem pair_sublist_without : [a, b].Sublist (without mate l m) ↔
    [a, b].Sublist l ∧ a ∈ without mate l m ∧ b ∈ without mate l m := by
  constructor
  · intro h
    exact ⟨h.trans List.filter_sublist, h.subset (by simp), h.subset (by simp)⟩
  · rintro ⟨h, ha, hb⟩
    have hfilter := h.filter fun c => decide (c ≠ m ∧ mate m ≠ some c)
    rwa [List.filter_cons_of_pos (by simpa using (mem_without.1 ha).2),
      List.filter_cons_of_pos (by simpa using (mem_without.1 hb).2), List.filter_nil] at hfilter

/-- The return is somewhere behind the call. -/
theorem Paired.exists_split (h : Paired mate (xs ++ a :: ys)) (ha : mate a = some m) :
    ∃ us vs, ys = us ++ m :: vs ∧ without mate (xs ++ a :: ys) a = xs ++ (us ++ vs) := by
  obtain ⟨us, vs, rfl⟩ := List.append_of_mem
    (mem_of_pair_sublist h.nodup (h.later a m (by simp) ha))
  refine ⟨us, vs, rfl, ?_⟩
  have hnodup := h.nodup
  rw [List.nodup_middle, ← List.append_assoc, ← List.cons_append, List.nodup_middle] at hnodup
  have hkeep : ∀ c ∈ xs ++ us ++ vs, c ≠ a ∧ mate a ≠ some c := by
    intro c hc
    rw [List.nodup_cons, List.cons_append, List.nodup_cons] at hnodup
    refine ⟨?_, ?_⟩
    · rintro rfl
      exact hnodup.2.1 hc
    · intro hac
      obtain rfl := Option.some.inj (ha.symm.trans hac)
      exact hnodup.1 (List.mem_cons_of_mem _ hc)
  have hpart : ∀ l : List α, (∀ c ∈ l, c ∈ xs ++ us ++ vs) →
      l.filter (fun c => decide (c ≠ a ∧ mate a ≠ some c)) = l := fun l hl =>
    List.filter_eq_self.2 fun c hc => decide_eq_true (hkeep c (hl c hc))
  rw [Lib.without, List.filter_append, List.filter_cons_of_neg (by simp), List.filter_append,
    List.filter_cons_of_neg (by simp [ha]), hpart xs (by simp +contextual),
      hpart us (by simp +contextual),
    hpart vs (by simp +contextual)]

/-- What is left is again a list of calls and returns. -/
theorem Paired.without (h : Paired mate l) (hmem : a ∈ l) (ha : mate a = some m) :
    Paired mate (without mate l a) where
  nodup := h.nodup.filter _
  later b r hb hr := by
    have hb' := mem_without.1 hb
    have hlater := h.later b r hb'.1 hr
    refine pair_sublist_without.2 ⟨hlater, hb, mem_without.2 ⟨hlater.subset (by simp), ?_, ?_⟩⟩
    · rintro rfl
      rw [h.ret b r hb'.1 hr] at ha
      cases ha
    · intro har
      exact hb'.2.1 (h.inj b a r hb'.1 hmem hr har)
  ret b r hb := h.ret b r (mem_without.1 hb).1
  inj b c r hb hc := h.inj b c r (mem_without.1 hb).1 (mem_without.1 hc).1
  called r hr hnone := by
    have hr' := mem_without.1 hr
    obtain ⟨b, hb, hbr⟩ := h.called r hr'.1 hnone
    refine ⟨b, mem_without.2 ⟨hb, ?_, ?_⟩, hbr⟩
    · rintro rfl
      exact hr'.2.2 hbr
    · intro hab
      rw [h.ret a b hmem hab] at hbr
      cases hbr

/-! ## Orders -/

/-- The calls of a list. -/
def callsOf (mate : α → Option α) (l : List α) : List α := l.filter fun a => (mate a).isSome

omit [DecidableEq α] in
/-- A call is an entry that has a mate. -/
theorem mem_callsOf : a ∈ callsOf mate l ↔ a ∈ l ∧ (mate a).isSome := List.mem_filter

omit [DecidableEq α] in
/-- Without calls there is nothing. -/
theorem Paired.eq_nil_of_callsOf (h : Paired mate l) (hnil : callsOf mate l = []) : l = [] := by
  refine List.eq_nil_iff_forall_not_mem.2 fun a ha => ?_
  have hnone : ∀ b ∈ l, ¬ (mate b).isSome := fun b hb hb' =>
    List.not_mem_nil (hnil ▸ mem_callsOf.2 ⟨hb, hb'⟩)
  obtain ⟨b, hb, hba⟩ := h.called a ha (Option.not_isSome_iff_eq_none.1 (hnone a ha))
  exact hnone b hb (by rw [hba]; rfl)

/-- The calls that are left. -/
theorem Paired.callsOf_perm (h : Paired mate l) (hmem : a ∈ l) (ha : mate a = some m) :
    (a :: callsOf mate (Lib.without mate l a)).Perm (callsOf mate l) := by
  have hnodup : (callsOf mate (Lib.without mate l a)).Nodup := (h.nodup.filter _).filter _
  refine (List.perm_ext_iff_of_nodup ?_ (h.nodup.filter _)).2 fun b => ?_
  · refine List.nodup_cons.2 ⟨fun hin => ?_, hnodup⟩
    exact (mem_without.1 (mem_callsOf.1 hin).1).2.1 rfl
  · rw [List.mem_cons, mem_callsOf, mem_without]
    change _ ↔ b ∈ callsOf mate l
    rw [mem_callsOf]
    constructor
    · rintro (rfl | ⟨⟨hb, -⟩, hcall⟩)
      · exact ⟨hmem, by rw [ha]; rfl⟩
      · exact ⟨hb, hcall⟩
    · rintro ⟨hb, hcall⟩
      rcases eq_or_ne b a with rfl | hne
      · exact .inl rfl
      · refine .inr ⟨⟨hb, hne, fun hab => ?_⟩, hcall⟩
        rw [h.ret a b hmem hab] at hcall
        cases hcall

/-- An order in which no call comes before one that had returned when it was made. -/
def Respects (mate : α → Option α) (l order : List α) : Prop :=
  order.Pairwise fun a b => ∀ m, mate b = some m → ¬ [m, a].Sublist l

/-- A call that can be taken first is the first in an order that respects returns and calls. -/
theorem Respects.cons (h : Paired mate l) (hl : l = xs ++ a :: ys)
    (hxs : ∀ x ∈ xs, (mate x).isSome)
    (hm : mate a = some m) (hperm : order.Perm (callsOf mate (Lib.without mate l a)))
    (hrespects : Respects mate (Lib.without mate l a) order) : Respects mate l (a :: order) := by
  have hmem : a ∈ l := by
    rw [hl]
    simp
  have hleft : ∀ b ∈ order, b ∈ Lib.without mate l a :=
    fun b hb => (mem_callsOf.1 (hperm.subset hb)).1
  refine List.pairwise_cons.2 ⟨fun b hb r hr hbefore => ?_, ?_⟩
  · -- a return before `a` would be among the calls before it
    rw [hl] at hbefore
    have hcall := hxs r ((pair_sublist_iff (hl ▸ h.nodup)).1 hbefore)
    rw [h.ret b r (mem_without.1 (hleft b hb)).1 hr] at hcall
    cases hcall
  · refine hrespects.imp_of_mem fun hb hc hbc r hr hbefore => hbc r hr ?_
    have hlater := (h.without hmem hm).later _ r (hleft _ hc) hr
    exact pair_sublist_without.2 ⟨hbefore, hlater.subset (by simp), hleft _ hb⟩

omit [DecidableEq α] in
/-- The first call of an order that respects returns and calls can be taken first. -/
theorem Respects.first (h : Paired mate (xs ++ a :: ys))
    (hperm : (a :: order).Perm (callsOf mate (xs ++ a :: ys)))
    (hrespects : Respects mate (xs ++ a :: ys) (a :: order)) : ∀ x ∈ xs, (mate x).isSome := by
  intro x hx
  by_contra hnone
  obtain ⟨b, hb, hbx⟩ :=
    h.called x (List.mem_append_left _ hx) (Option.not_isSome_iff_eq_none.1 hnone)
  have hbefore : [x, a].Sublist (xs ++ a :: ys) := (pair_sublist_iff h.nodup).2 hx
  rcases List.mem_cons.1 (hperm.mem_iff.2 (mem_callsOf.2 ⟨hb, by rw [hbx]; rfl⟩)) with rfl | hb'
  · -- it is not the return of `a`, which is later
    have hys := mem_of_pair_sublist h.nodup (h.later b x hb hbx)
    have hnodup := h.nodup
    rw [List.nodup_append] at hnodup
    exact hnodup.2.2 x hx x (List.mem_cons_of_mem _ hys) rfl
  · exact (List.pairwise_cons.1 hrespects).1 b hb' x hbx hbefore

omit [DecidableEq α] in
/-- The order in which the calls were made respects returns and calls. -/
theorem Paired.respects_callsOf (h : Paired mate l) : Respects mate l (callsOf mate l) := by
  rw [Respects, List.pairwise_iff_forall_sublist]
  intro a b hab m hm hbefore
  have hab' : [a, b].Sublist l := hab.trans List.filter_sublist
  have hlater := h.later b m (hab'.subset (by simp)) hm
  obtain ⟨xs, ys, rfl⟩ := List.append_of_mem (hab'.subset (List.mem_cons_self ..))
  -- `m` is before `a`, and `b` after it
  have hm' := (pair_sublist_iff h.nodup).1 hbefore
  have hb := mem_of_pair_sublist h.nodup hab'
  obtain ⟨us, vs, rfl⟩ := List.append_of_mem hb
  have hnodup := h.nodup
  rw [← List.cons_append, ← List.append_assoc] at hnodup hlater
  have hin := mem_of_pair_sublist hnodup hlater
  rw [List.nodup_append] at hnodup
  exact hnodup.2.2 m (List.mem_append_left _ hm') m (List.mem_cons_of_mem _ hin) rfl

/-- The calls that are taken, and then the others as they were made, respect returns and calls. -/
theorem Takes.respects (h : Paired mate l) (ht : Takes mate run l s order l' t) :
    (order ++ callsOf mate l').Perm (callsOf mate l) ∧ Respects mate l (order ++ callsOf mate l') ∧
      order.foldlM run s = some t := by
  induction ht with
  | nil => exact ⟨.refl _, h.respects_callsOf, rfl⟩
  | @cons l xs ys order l' s s' t a hl hxs ha hrun _ ih =>
    obtain ⟨m, hm⟩ := Option.isSome_iff_exists.1 ha
    have hmem : a ∈ l := by
      rw [hl]
      simp
    obtain ⟨hperm, hrespects, hfold⟩ := ih (h.without hmem hm)
    refine ⟨(hperm.cons a).trans (h.callsOf_perm hmem hm), hrespects.cons h hl hxs hm hperm, ?_⟩
    rw [List.foldlM_cons, hrun]
    exact hfold

/-- The orders in which all calls can be taken are those that respect returns and calls, and in
which the calls can be executed. -/
theorem takes_iff (h : Paired mate l) : (∃ t, Takes mate run l s order [] t) ↔
    order.Perm (callsOf mate l) ∧ Respects mate l order ∧ (order.foldlM run s).isSome := by
  constructor
  · rintro ⟨t, ht⟩
    obtain ⟨hperm, hrespects, hfold⟩ := ht.respects h
    rw [callsOf, List.filter_nil, List.append_nil] at hperm hrespects
    exact ⟨hperm, hrespects, by rw [hfold]; rfl⟩
  · rintro ⟨hperm, hrespects, hsome⟩
    induction order generalizing l s with
    | nil =>
      rw [h.eq_nil_of_callsOf (List.nil_perm.1 hperm)]
      exact ⟨s, .nil⟩
    | cons a order ih =>
      obtain ⟨hmem, hcall⟩ := mem_callsOf.1 (hperm.subset List.mem_cons_self)
      obtain ⟨m, hm⟩ := Option.isSome_iff_exists.1 hcall
      obtain ⟨t, ht⟩ := Option.isSome_iff_exists.1 hsome
      rw [List.foldlM_cons] at ht
      obtain ⟨s', hrun, ht⟩ := Option.bind_eq_some_iff.1 ht
      have hleft : order.Perm (callsOf mate (Lib.without mate l a)) :=
        (hperm.trans (h.callsOf_perm hmem hm).symm).cons_inv
      have htail : Respects mate (Lib.without mate l a) order :=
        (List.pairwise_cons.1 hrespects).2.imp fun hbc r hr hbefore =>
          hbc r hr (hbefore.trans List.filter_sublist)
      obtain ⟨t', hrest⟩ := ih (h.without hmem hm) hleft htail (by rw [ht]; rfl)
      obtain ⟨xs, ys, rfl⟩ := List.append_of_mem hmem
      exact ⟨t', .cons rfl (hrespects.first h hperm) hcall hrun hrest⟩

/-! ## States -/

/-- States in which the same calls can be executed lead to the same orders. -/
theorem Takes.of_sim {E : σ → σ → Prop}
    (hsim : ∀ s s' a t, E s s' → run s a = some t → ∃ t', run s' a = some t' ∧ E t t')
    (hE : E s s') (h : Takes mate run l s order l' t) : ∃ t', Takes mate run l s' order l' t' := by
  induction h generalizing s' with
  | nil => exact ⟨s', .nil⟩
  | cons hl hxs ha hrun _ ih =>
    obtain ⟨u, hu, hEu⟩ := hsim _ _ _ _ hE hrun
    obtain ⟨t', ht'⟩ := ih hEu
    exact ⟨t', .cons hl hxs ha hu ht'⟩

/-- Calls are taken one after the other. -/
theorem Takes.trans {l'' order' : List α} {u : σ} (h : Takes mate run l s order l' t)
    (h' : Takes mate run l' t order' l'' u) : Takes mate run l s (order ++ order') l'' u := by
  induction h with
  | nil => exact h'
  | cons hl hxs ha hrun _ ih => exact .cons hl hxs ha hrun (ih h')

end

end DistLabs.Lib
