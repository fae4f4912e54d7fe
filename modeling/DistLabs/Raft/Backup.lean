import DistLabs.Raft.Contiguous

/-!
# Fast backup

After a rejected `AppendEntries` the leader moves `nextIndex` back by two scans: the follower's for
the first index of the conflicting term, and its own for the last one. `fast_backup` says that the
new `nextIndex` is at most the rejected `PrevLogIndex` and past every index at which the two logs
agree, for every pair of logs with log matching, wherever they were compacted.
-/

namespace DistLabs

open Lib

variable {n : Nat} {α : Type} {rf : Raft n α} {log : List (LogEntry α)}

/-- A contiguous log whose terms do not decrease; index 0 has term 0, and no other index has. -/
structure Graded (log : List (LogEntry α)) : Prop where
  contiguous : Contiguous log
  mono : log.Pairwise fun a b => a.term ≤ b.term
  zero : ∀ e ∈ log, e.index = 0 → e.term = 0
  pos : ∀ e ∈ log, e.index ≠ 0 → 1 ≤ e.term

/-- Log matching: equal terms at an index imply equal terms at every lower index that both hold. -/
def TermsMatch (l f : List (LogEntry α)) : Prop :=
  ∀ e ∈ l, ∀ e' ∈ f, e.index = e'.index → e.term = e'.term →
    ∀ x ∈ l, ∀ x' ∈ f, x.index = x'.index → x.index ≤ e.index → x.term = x'.term

/-- The definition in a form that can be decided. -/
theorem graded_iff : Graded log ↔ Contiguous log ∧ (log.Pairwise fun a b => a.term ≤ b.term) ∧
    (∀ e ∈ log, e.index = 0 → e.term = 0) ∧ ∀ e ∈ log, e.index ≠ 0 → 1 ≤ e.term :=
  ⟨fun h => ⟨h.1, h.2, h.3, h.4⟩, fun h => ⟨h.1, h.2.1, h.2.2.1, h.2.2.2⟩⟩

instance decidableGraded (log : List (LogEntry α)) : Decidable (Graded log) :=
  decidable_of_iff _ graded_iff.symm

instance decidableTermsMatch (l f : List (LogEntry α)) : Decidable (TermsMatch l f) :=
  inferInstanceAs (Decidable (∀ e ∈ l, ∀ e' ∈ f, e.index = e'.index → e.term = e'.term →
    ∀ x ∈ l, ∀ x' ∈ f, x.index = x'.index → x.index ≤ e.index → x.term = x'.term))

/-! ## Reading graded logs -/

/-- `getTerm` finds exactly the entries of the log. -/
theorem Contiguous.getTerm_iff_mem (h : Contiguous rf.log) {i t : Nat} :
    rf.getTerm i = some t ↔ ∃ e ∈ rf.log, e.index = i ∧ e.term = t := by
  rw [h.getTerm, Option.map_eq_some_iff]
  constructor
  · rintro ⟨e, he, rfl⟩
    exact ⟨e, List.mem_of_getElem? (window_eq_some_iff.1 he).2, h.index_of_entryAt he, rfl⟩
  · rintro ⟨e, he, rfl, rfl⟩
    obtain ⟨k, hk⟩ := List.getElem?_of_mem he
    refine ⟨e, ?_, rfl⟩
    rw [entryAt, h.index_eq k e hk, window_add, hk]

namespace Graded

variable (h : Graded rf.log)
include h

/-- Terms do not decrease with the index. -/
theorem getTerm_le {i j t u : Nat} (hij : i ≤ j) (hi : rf.getTerm i = some t)
    (hj : rf.getTerm j = some u) : t ≤ u := by
  rcases Nat.lt_or_eq_of_le hij with hlt | rfl
  swap
  · rw [hi] at hj
    cases hj
    exact Nat.le_refl _
  rw [h.contiguous.getTerm, Option.map_eq_some_iff] at hi hj
  obtain ⟨e, he, rfl⟩ := hi
  obtain ⟨e', he', rfl⟩ := hj
  obtain ⟨hle, hget⟩ := window_eq_some_iff.1 he
  obtain ⟨_, hget'⟩ := window_eq_some_iff.1 he'
  obtain ⟨hlen, rfl⟩ := List.getElem?_eq_some_iff.1 hget
  obtain ⟨hlen', rfl⟩ := List.getElem?_eq_some_iff.1 hget'
  exact List.pairwise_iff_getElem.1 h.mono _ _ hlen hlen' (by omega)

/-- The sentinel at index 0 has term 0. -/
theorem getTerm_zero {t : Nat} (ht : rf.getTerm 0 = some t) : t = 0 := by
  obtain ⟨e, he, hi, rfl⟩ := h.contiguous.getTerm_iff_mem.1 ht
  exact h.zero e he hi

/-- Only the sentinel has term 0. -/
theorem eq_zero_of_getTerm {i : Nat} (ht : rf.getTerm i = some 0) : i = 0 := by
  obtain ⟨e, he, rfl, hterm⟩ := h.contiguous.getTerm_iff_mem.1 ht
  by_contra hne
  have := h.pos e he hne
  omega

end Graded

/-! ## The two scans -/

section
variable {leader follower : Raft n α} {p : Nat}
  (hl : Graded leader.log) (hf : Graded follower.log) (hm : TermsMatch leader.log follower.log)

include hl hf hm in
/-- The logs agree nowhere from an index on at which they differ. -/
theorem lt_of_terms_ne {t u i v : Nat} (hp : leader.getTerm p = some t)
    (hp' : follower.getTerm p = some u) (hne : t ≠ u) (hi : leader.getTerm i = some v)
    (hi' : follower.getTerm i = some v) : i < p := by
  by_contra hge
  obtain ⟨e, he, rfl, rfl⟩ := hl.contiguous.getTerm_iff_mem.1 hi
  obtain ⟨e', he', hei, het⟩ := hf.contiguous.getTerm_iff_mem.1 hi'
  obtain ⟨x, hx, rfl, rfl⟩ := hl.contiguous.getTerm_iff_mem.1 hp
  obtain ⟨x', hx', hxi, rfl⟩ := hf.contiguous.getTerm_iff_mem.1 hp'
  exact hne (hm e he e' he' hei.symm het.symm x hx x' hx' hxi.symm (by omega))

include hl hf hm in
/-- The conflicting term `t` is that of the follower at `p`, and the follower has it from `r`
on. -/
theorem backUp_of_conflict {server : Fin n} {args : AppendEntriesArgs n α} {t r : Nat}
    (hp : leader.getTerm args.prevLogIndex = some args.prevLogTerm)
    (hp' : follower.getTerm args.prevLogIndex = some t) (hne : args.prevLogTerm ≠ t)
    (hr : r ≤ args.prevLogIndex)
    (hsame : ∀ i, r ≤ i → i < args.prevLogIndex → follower.getTerm i = some t)
    (hmatch : leader.matchIndex server < args.prevLogIndex) (term : Nat) :
    ∃ next, leader.backUp server args { term, conflictIndex := r, conflictTerm := t } =
        some { leader with nextIndex := Function.update leader.nextIndex server next } ∧
      next ≤ args.prevLogIndex ∧
      ∀ i v, leader.getTerm i = some v → follower.getTerm i = some v → i < next := by
  have hpos : t ≠ 0 := by
    rintro rfl
    have h0 := hf.eq_zero_of_getTerm hp'
    rw [h0] at hp
    exact hne (hl.getTerm_zero hp)
  obtain ⟨last, b, hend, hb, hgt, hcase⟩ := hl.contiguous.exists_conflictEnd t
    (Nat.le_of_lt (hl.contiguous.bounds_of_getTerm hp).2)
  -- below `p` the leader's scan passes no index at which the logs agree: there the follower's term
  -- is at most `t`, and the scan passes larger ones
  have hbelow : ∀ i v, leader.getTerm i = some v → follower.getTerm i = some v → i < b := by
    intro i v hi hi'
    have hlt := lt_of_terms_ne hl hf hm hp hp' hne hi hi'
    by_contra hge
    obtain ⟨w, hw, htw⟩ := hgt i (Nat.le_of_not_lt hge) hlt
    rw [hi] at hw
    cases hw
    have := hf.getTerm_le (Nat.le_of_lt hlt) hi' hp'
    omega
  refine ⟨_, backUp_eq hl.contiguous.getFirstIndex ((if_pos (by simp only; omega)).trans hend),
    ?_⟩
  rcases hcase with ⟨rfl, hfirst⟩ | ⟨rfl, i, u, rfl, hi, hu⟩ | ⟨i, u, rfl, rfl, hi, hu⟩
  · rw [if_neg (by decide)]
    refine ⟨Nat.max_le.2 ⟨hr, hmatch⟩, fun i v hi hi' => ?_⟩
    have hlt := hbelow i v hi hi'
    have hge := (hl.contiguous.bounds_of_getTerm hi).1
    omega
  · rw [if_neg (by decide)]
    refine ⟨Nat.max_le.2 ⟨hr, hmatch⟩, fun j v hj hj' => ?_⟩
    have hlt := hbelow j v hj hj'
    have hle := hl.getTerm_le (Nat.le_of_lt_succ hlt) hj hi
    refine Nat.lt_of_lt_of_le ?_ (Nat.le_max_left ..)
    by_contra hge
    have hjt := hsame j (Nat.le_of_not_lt hge) (by omega)
    rw [hj'] at hjt
    cases hjt
    omega
  · have hi0 : i ≠ 0 := by
      rintro rfl
      have := hl.getTerm_zero hi
      omega
    rw [if_pos (by omega)]
    exact ⟨hb, hbelow⟩

end

/-! ## The exchange -/

/-- **Fast backup.** A follower rejects a request that was built from the leader's log and does not
start below its sentinel. The leader, whose log is still the same and who knows less than the
rejected index to match, then sets `nextIndex` to at most that index and past every index at which
the two logs have equal terms. -/
theorem fast_backup {leader leader' follower follower' : Raft n α} {me server : Fin n}
    {term g : Nat} {args : AppendEntriesArgs n α} {reply : AppendEntriesReply}
    (hl : Graded leader.log) (hf : Graded follower.log) (hm : TermsMatch leader.log follower.log)
    (hbuild : leader.buildRequest me server term = some (some (.append args)))
    (hprev : (sentinel follower.log).index ≤ args.prevLogIndex)
    (halive : follower.state ≠ .dead) (hcur : follower.currentTerm ≤ args.term)
    (hreply : follower.appendEntries args g = some (follower', reply))
    (hreject : reply.success = false)
    (hlead : leader'.state = .leader ∧ leader'.currentTerm = args.term ∧ leader'.log = leader.log)
    (hmatch : leader'.matchIndex server < args.prevLogIndex) :
    ∃ leader'', leader'.handleAppendEntriesRPCResponse me server args reply =
        some (leader'', true, []) ∧
      leader''.nextIndex server ≤ args.prevLogIndex ∧
      ∀ e ∈ leader.log, ∀ e' ∈ follower.log, e.index = e'.index → e.term = e'.term →
        e.index < leader''.nextIndex server := by
  obtain ⟨hstate, hterm, hlog⟩ := hlead
  have hp := (hl.contiguous.of_buildRequest_append hbuild).2.1
  have hl' : Graded leader'.log := by rw [hlog]; exact hl
  have hget : ∀ i, leader'.getTerm i = leader.getTerm i := fun i => by
    rw [hl'.contiguous.getTerm, hl.contiguous.getTerm, hlog]
  -- whatever `backUp` computes is what the handler assigns
  suffices hnext : reply.term = args.term ∧ ∃ next, leader'.backUp server args reply =
        some { leader' with nextIndex := Function.update leader'.nextIndex server next } ∧
      next ≤ args.prevLogIndex ∧
      ∀ i v, leader'.getTerm i = some v → follower.getTerm i = some v → i < next by
    obtain ⟨hrt, next, hback, hle, hgt⟩ := hnext
    rw [Raft.handleAppendEntriesRPCResponse, if_pos ⟨hstate, hterm⟩,
      if_pos (hrt.trans hterm.symm), hreject, if_neg Bool.false_ne_true, hback]
    refine ⟨_, rfl, ?_, fun e he e' he' hi ht => ?_⟩
    · simpa only [Function.update_self] using hle
    · simp only [Function.update_self]
      refine hgt e.index e.term ?_ (hf.contiguous.getTerm_iff_mem.2 ⟨e', he', hi.symm, ht.symm⟩)
      rw [hget]
      exact hl.contiguous.getTerm_iff_mem.2 ⟨e, he, rfl, rfl⟩
  obtain ⟨_, _, hr, hcase⟩ := hf.contiguous.exists_appendEntries args g
  rw [hreply] at hr
  cases hr
  rcases hcase with ⟨hdead | hlt, _⟩ | ⟨_, _, hct, hrec⟩
  · exact absurd hdead halive
  · omega
  have hlogf : (follower.stepDown args.term).toFollower.log = follower.log := stepDown_log ..
  have hgetf : ∀ i, (follower.stepDown args.term).toFollower.getTerm i = follower.getTerm i := by
    intro i
    rw [Raft.getTerm, Raft.getFirstIndex, hlogf]
    rfl
  cases hrec with
  | below hlt =>
    rw [hlogf] at hlt
    omega
  | short hshort =>
    rw [hlogf] at hshort ⊢
    refine ⟨hct, _, backUp_eq hl'.contiguous.getFirstIndex
      (if_neg (show ¬ (-1 : Int) > 0 by decide)), Nat.max_le.2 ⟨hshort, hmatch⟩,
        fun i v _ hi => ?_⟩
    exact Nat.lt_of_lt_of_le (hf.contiguous.bounds_of_getTerm hi).2 (Nat.le_max_left ..)
  | conflict ht hne hfirst hr hsame =>
    rw [hgetf] at ht
    refine ⟨hct, backUp_of_conflict hl' hf (by rw [hlog]; exact hm) (by rw [hget]; exact hp) ht hne
      hr (fun i h1 h2 => ?_) hmatch _⟩
    rw [← hgetf]
    exact hsame i h1 h2
  | stored => cases hreject

/-- A leader of term 6 with entries of the terms 4, 4, 6 and 6, and a follower that has entries of
the terms 4, 5, 5 and 5 there. -/
def backupLeader : Raft 2 Nat where
  persister := .empty
  currentTerm := 6
  voteFor := none
  log := [.zero, ⟨some 1, 4, 1⟩, ⟨some 2, 4, 2⟩, ⟨some 3, 6, 3⟩, ⟨some 4, 6, 4⟩]
  spare := []
  state := .leader
  commitIndex := 0
  lastApplied := 0
  nextIndex := fun _ => 5
  matchIndex := fun _ => 0

/-- The follower. -/
def backupFollower : Raft 2 Nat :=
  { backupLeader with
    currentTerm := 5, state := .follower
    log := [.zero, ⟨some 1, 4, 1⟩, ⟨some 7, 5, 2⟩, ⟨some 8, 5, 3⟩, ⟨some 9, 5, 4⟩] }

/-- The leader backs up, but not past an entry that both logs have. -/
theorem backupLeader_backedUp :
    ∃ leader'', backupLeader.handleAppendEntriesRPCResponse 0 1
        ⟨6, 0, 4, 6, [], 0⟩ ⟨6, false, 2, 5⟩ = some (leader'', true, []) ∧
      leader''.nextIndex 1 ≤ 4 ∧
      ∀ e ∈ backupLeader.log, ∀ e' ∈ backupFollower.log, e.index = e'.index → e.term = e'.term →
        e.index < leader''.nextIndex 1 := by
  have hbuild : backupLeader.buildRequest 0 1 6 =
      some (some (.append ⟨6, 0, 4, 6, [], 0⟩)) := rfl
  obtain ⟨follower', hreply⟩ : ∃ follower', backupFollower.appendEntries ⟨6, 0, 4, 6, [], 0⟩ 0 =
      some (follower', ⟨6, false, 2, 5⟩) := ⟨_, rfl⟩
  exact fast_backup (by decide) (by decide) (by decide) hbuild (by decide) (by decide) (by decide)
    hreply rfl ⟨rfl, rfl, rfl⟩ (by decide)

end DistLabs
