import DistLabs.Raft.Mono

/-!
# Reading and cutting a compacted log

What the accessors of `raft.go` return on a log that is the compacted form of an abstract log
(`LogOK`), and what slicing and appending do to it.
-/

namespace DistLabs

open Lib Chronicle

variable {n : Nat} {α : Type} {m : Mode} {H : Chron n α} {tip : Pos} {rf : Raft n α}

/-! ## Entries of abstract logs -/

/-- The entries of an abstract log carry their index. -/
theorem Indexed.path (hidx : Indexed H) {k : Nat} {e : LogEntry α}
    (he : (H.path tip)[k]? = some e) : e.index = k + 1 := by
  rw [Chronicle.path, pathTo, List.getElem?_take] at he
  split at he
  · exact hidx _ _ _ he
  · cases he

/-- The term of an entry of an abstract log. -/
theorem termAt_of_getElem? {l : List (LogEntry α)} {k : Nat} {e : LogEntry α}
    (he : l[k]? = some e) : termAt l (k + 1) = e.term := by
  simp [termAt, he, HasTerm.term]

/-- Where an abstract log has an entry. -/
theorem exists_getElem? {l : List (LogEntry α)} {i : Nat} (h0 : 0 < i) (hi : i ≤ l.length) :
    ∃ e, l[i - 1]? = some e ∧ e.term = termAt l i := by
  have hlt : i - 1 < l.length := by omega
  have hget : l[i - 1]? = some l[i - 1] := List.getElem?_eq_getElem hlt
  refine ⟨l[i - 1], hget, ?_⟩
  rw [← termAt_of_getElem? hget, Nat.sub_add_cancel h0]

/-- The entries of a leader's log were appended by the leaders of their terms. -/
theorem minted_of_ledger (hok : H.OK) (hidx : Indexed H) {V k : Nat} {e : LogEntry α}
    (he : (H.ledger V)[k]? = some e) : Minted H e := by
  have hlt := (List.getElem?_eq_some_iff.1 he).1
  have hterm := termAt_of_getElem? he
  have htree := hok.ledger.tree V (k + 1) hlt
  rw [hterm] at htree
  have hk := hidx _ _ _ he
  refine ⟨by omega, ?_⟩
  rw [hk, Nat.add_sub_cancel]
  have := congrArg (·[k]?) htree
  simp only [List.getElem?_take, Nat.lt_succ_self, if_true] at this
  rw [← this, he]

/-- The entries of an abstract log were appended by the leaders of their terms. -/
theorem minted_of_path (hok : H.OK) (hidx : Indexed H) {k : Nat} {e : LogEntry α}
    (he : (H.path tip)[k]? = some e) : Minted H e := by
  rw [Chronicle.path, pathTo, List.getElem?_take] at he
  split at he
  · exact minted_of_ledger hok hidx he
  · cases he

/-- An entry that a leader appended is determined by its index and term. -/
theorem Minted.unique {e e' : LogEntry α} (h : Minted H e) (h' : Minted H e')
    (hi : e.index = e'.index) (ht : e.term = e'.term) : e = e' := by
  have h1 := h.2
  rw [hi, ht, h'.2] at h1
  exact (Option.some.inj h1).symm

/-! ## The accessors -/

namespace LogOK

variable (h : LogOK H tip rf.log)
include h

/-- The log starts with the sentinel. -/
theorem getElem?_zero : rf.log[0]? = some (sentinel rf.log) := by
  rw [h.eq]
  rfl

/-- Past the sentinel a log holds the abstract log. -/
theorem getElem?_succ (k : Nat) :
    rf.log[k + 1]? = (H.path tip)[(sentinel rf.log).index + k]? := by
  conv_lhs => rw [h.eq]
  rw [List.getElem?_cons_succ, List.getElem?_drop]

/-- `getFirstIndex` does not panic. -/
theorem getFirstIndex : rf.getFirstIndex = some (sentinel rf.log).index := by
  rw [Raft.getFirstIndex, h.eq]
  rfl

/-- `getFirstTerm` does not panic. -/
theorem getFirstTerm : rf.getFirstTerm = some (sentinel rf.log).term := by
  rw [Raft.getFirstTerm, h.eq]
  rfl

/-- Cutting the log at index `i` leaves what the abstract log has past it. -/
theorem drop {i : Nat} (hi : (sentinel rf.log).index < i) :
    rf.log.drop (i - (sentinel rf.log).index) = (H.path tip).drop (i - 1) := by
  obtain ⟨k, hk⟩ : ∃ k, i - (sentinel rf.log).index = k + 1 :=
    Nat.exists_eq_succ_of_ne_zero (by omega)
  rw [hk]
  conv_lhs => rw [h.eq]
  rw [List.drop_succ_cons, List.drop_drop]
  congr 1
  omega

/-- Cutting the log before index `i` leaves the sentinel and the abstract log up to there. -/
theorem take {i : Nat} (hi : (sentinel rf.log).index < i) :
    rf.log.take (i - (sentinel rf.log).index) =
      sentinel rf.log :: ((H.path tip).take (i - 1)).drop (sentinel rf.log).index := by
  obtain ⟨k, hk⟩ : ∃ k, i - (sentinel rf.log).index = k + 1 :=
    Nat.exists_eq_succ_of_ne_zero (by omega)
  rw [hk]
  conv_lhs => rw [h.eq]
  rw [List.take_succ_cons, List.take_drop]
  congr 3
  omega

variable (htip : ValidPos H.ledger tip)
include htip

/-- The log goes from the sentinel to the tip. -/
theorem length : rf.log.length = tip.index - (sentinel rf.log).index + 1 := by
  conv_lhs => rw [h.eq]
  rw [List.length_cons, List.length_drop, htip.length_pathTo]

/-- The entry at an index past the sentinel. -/
theorem exists_entry {i : Nat} (hi : (sentinel rf.log).index < i) (hi' : i ≤ tip.index) :
    ∃ e, rf.log[i - (sentinel rf.log).index]? = some e ∧ (H.path tip)[i - 1]? = some e ∧
      e.term = termAt (H.path tip) i := by
  obtain ⟨e, he, ht⟩ := exists_getElem? (l := H.path tip) (i := i) (by omega)
    (by rw [htip.length_pathTo]; exact hi')
  refine ⟨e, ?_, he, ht⟩
  rw [show i - (sentinel rf.log).index = (i - 1 - (sentinel rf.log).index) + 1 by omega,
    h.getElem?_succ, ← he]
  congr 1
  omega

/-- The last entry. -/
theorem getLast? (hidx : Indexed H) :
    ∃ e, rf.log.getLast? = some e ∧ e.index = tip.index ∧ e.term = tip.term := by
  rw [List.getLast?_eq_getElem?, h.length htip, Nat.add_sub_cancel]
  rcases Nat.lt_or_eq_of_le h.le with hlt | heq
  · obtain ⟨e, he, hp, ht⟩ := h.exists_entry htip hlt (Nat.le_refl _)
    refine ⟨e, he, ?_, ?_⟩
    · rw [hidx.path hp]
      omega
    · rw [ht, termAt_pathTo (Nat.le_refl _), htip.2]
  · refine ⟨sentinel rf.log, ?_, heq, ?_⟩
    · rw [heq, Nat.sub_self, h.getElem?_zero]
    · rw [h.tip_eq heq]
      rfl

/-- The last index is that of the tip. -/
theorem getLastIndex (hidx : Indexed H) : rf.getLastIndex = some tip.index := by
  obtain ⟨e, he, hi, _⟩ := h.getLast? htip hidx
  rw [Raft.getLastIndex, he, Option.map_some, hi]

/-- The last term is that of the tip. -/
theorem getLastTerm (hidx : Indexed H) : rf.getLastTerm = some tip.term := by
  obtain ⟨e, he, _, ht⟩ := h.getLast? htip hidx
  rw [Raft.getLastTerm, he, Option.map_some, ht]

/-- The next index is the one after the tip. -/
theorem getNextIndex (hidx : Indexed H) : rf.getNextIndex = some (tip.index + 1) := by
  rw [Raft.getNextIndex, h.getLastIndex htip hidx, Option.map_some]

omit htip in
/-- `getTerm` answers at the sentinel. -/
theorem getTerm_first : rf.getTerm (sentinel rf.log).index = some (sentinel rf.log).term := by
  simp [Raft.getTerm, h.getFirstIndex, h.getElem?_zero]

/-- The term at an index past the sentinel. -/
theorem getTerm {i : Nat} (hi : (sentinel rf.log).index < i) (hi' : i ≤ tip.index) :
    rf.getTerm i = some (termAt (H.path tip) i) := by
  obtain ⟨e, he, _, ht⟩ := h.exists_entry htip hi hi'
  simp [Raft.getTerm, h.getFirstIndex, he, ht, Nat.not_lt.2 (Nat.le_of_lt hi)]

/-- A term read from the log is the sentinel's or one of the abstract log. -/
theorem getTerm_cases {i t : Nat} (ht : rf.getTerm i = some t) :
    i = (sentinel rf.log).index ∧ t = (sentinel rf.log).term ∨
      (sentinel rf.log).index < i ∧ i ≤ tip.index ∧ t = termAt (H.path tip) i := by
  have hbound : (sentinel rf.log).index ≤ i ∧ i ≤ tip.index := by
    simp only [Raft.getTerm, h.getFirstIndex, Option.bind_eq_bind, Option.bind_some] at ht
    split at ht
    · cases ht
    · rw [Option.map_eq_some_iff] at ht
      obtain ⟨e, he, _⟩ := ht
      have hlt := (List.getElem?_eq_some_iff.1 he).1
      rw [h.length htip] at hlt
      have := h.le
      omega
  rcases Nat.lt_or_eq_of_le hbound.1 with hlt | heq
  · rw [h.getTerm htip hlt hbound.2] at ht
    exact .inr ⟨hlt, hbound.2, (Option.some.inj ht).symm⟩
  · subst heq
    rw [h.getTerm_first] at ht
    exact .inl ⟨rfl, (Option.some.inj ht).symm⟩

end LogOK

/-! ## Logs whose sentinel lies on their abstract log -/

/-- The sentinel lies on the abstract log that ends at `tip`. -/
def Clean (H : Chron n α) (tip : Pos) (log : List (LogEntry α)) : Prop :=
  (sentinel log).term = termAt (H.path tip) (sentinel log).index

namespace LogOK

variable (h : LogOK H tip rf.log) (htip : ValidPos H.ledger tip)
include h

/-- The entry at place `k` of a log has index `first + k`. -/
theorem index_of_getElem? (hidx : Indexed H) {k : Nat} {e : LogEntry α}
    (hk : rf.log[k]? = some e) : e.index = (sentinel rf.log).index + k := by
  cases k with
  | zero =>
    rw [h.getElem?_zero] at hk
    cases hk
    rfl
  | succ k =>
    rw [h.getElem?_succ] at hk
    rw [hidx.path hk]
    omega

/-- Indices increase along a log. -/
theorem pairwise_index (hidx : Indexed H) : rf.log.Pairwise fun a b => a.index < b.index := by
  rw [List.pairwise_iff_getElem]
  intro a b ha hb hab
  rw [h.index_of_getElem? hidx (List.getElem?_eq_getElem ha),
    h.index_of_getElem? hidx (List.getElem?_eq_getElem hb)]
  omega

include htip

/-- In a clean log `getTerm` answers at every index from the sentinel to the end, with the term of
the path. -/
theorem getTerm_of_clean (hc : Clean H tip rf.log) {i : Nat} (hi : (sentinel rf.log).index ≤ i)
    (hi' : i ≤ tip.index) : rf.getTerm i = some (termAt (H.path tip) i) := by
  rcases Nat.lt_or_eq_of_le hi with hlt | rfl
  · exact h.getTerm htip hlt hi'
  · rw [h.getTerm_first, hc]

/-- The entry at an index, the sentinel included. -/
theorem exists_mem_of_clean (hidx : Indexed H) (hc : Clean H tip rf.log) {i : Nat}
    (hi : (sentinel rf.log).index ≤ i) (hi' : i ≤ tip.index) :
    ∃ e ∈ rf.log, e.index = i ∧ e.term = termAt (H.path tip) i := by
  rcases Nat.lt_or_eq_of_le hi with hlt | rfl
  · obtain ⟨e, he, hp, ht⟩ := h.exists_entry htip hlt hi'
    refine ⟨e, List.mem_of_getElem? he, ?_, ht⟩
    rw [hidx.path hp]
    omega
  · exact ⟨sentinel rf.log, List.mem_of_getElem? h.getElem?_zero, rfl, hc⟩

/-- The terms of a log, its sentinel included. -/
theorem term_eq (hidx : Indexed H) (hc : Clean H tip rf.log) {e : LogEntry α} (he : e ∈ rf.log) :
    e.index ≤ tip.index ∧ e.term = termAt (H.path tip) e.index := by
  rw [h.eq, List.mem_cons] at he
  rcases he with rfl | he
  · exact ⟨h.le, hc⟩
  · obtain ⟨k, hk⟩ := List.getElem?_of_mem he
    rw [List.getElem?_drop] at hk
    have hi := hidx.path hk
    have hle : e.index ≤ tip.index := by
      have := (List.getElem?_eq_some_iff.1 hk).1
      rw [htip.length_pathTo] at this
      omega
    exact ⟨hle, by rw [hi, ← termAt_of_getElem? hk]⟩

end LogOK

/-- Terms do not decrease along an abstract log. -/
theorem termAt_path_mono (hok : H.OK) (htip : ValidPos H.ledger tip) {i k : Nat} (hik : i ≤ k)
    (hk : k ≤ tip.index) : termAt (H.path tip) i ≤ termAt (H.path tip) k := by
  rw [termAt_pathTo hk, termAt_pathTo (Nat.le_trans hik hk)]
  exact hok.ledger.mono _ _ _ hik (Nat.le_trans hk htip.1)

/-! ## Backing arrays -/

/-- Every cell past the sentinel of the backing array is fresh or holds an entry of its index. -/
theorem cell_ok (hok : H.OK) (hidx : Indexed H) (h : LogOK H tip rf.log)
    (hsp : SpareOK H rf.log rf.spare) {q : Nat} {e : LogEntry α}
    (he : (rf.log ++ rf.spare)[q + 1]? = some e) :
    e = .zero ∨ e.index = (sentinel rf.log).index + q + 1 ∧ Minted H e := by
  rcases Nat.lt_or_ge (q + 1) rf.log.length with hlt | hge
  · rw [List.getElem?_append_left hlt, h.getElem?_succ] at he
    exact .inr ⟨hidx.path he, minted_of_path hok hidx he⟩
  · rw [List.getElem?_append_right hge] at he
    refine (hsp _ _ he).imp id fun ⟨h1, h2⟩ => ⟨?_, h2⟩
    rw [h1]
    omega

/-- Fresh cells are fine. -/
theorem spareOK_replicate (H : Chron n α) (log : List (LogEntry α)) (g : Nat) :
    SpareOK H log (List.replicate g .zero) := fun _ _ he =>
  .inl (List.eq_of_mem_replicate (List.mem_of_getElem? he))

theorem spareOK_nil (H : Chron n α) (log : List (LogEntry α)) : SpareOK H log [] :=
  spareOK_replicate H log 0

/-- Appending at a place past the sentinel leaves the rest of the array, or a fresh one. -/
theorem spareOK_appendAt (hok : H.OK) (hidx : Indexed H) (h : LogOK H tip rf.log)
    (hsp : SpareOK H rf.log rf.spare) {k g : Nat} {es : List (LogEntry α)} (hk : 0 < k)
    (hk' : k ≤ rf.log.length) :
    SpareOK H (rf.appendAt k es g).log (rf.appendAt k es g).spare := by
  have hlen : (rf.appendAt k es g).log.length = k + es.length := by
    simp [Raft.appendAt, Nat.min_eq_left hk']
  have hs : sentinel (rf.appendAt k es g).log = sentinel rf.log := by
    obtain ⟨k, rfl⟩ : ∃ j, k = j + 1 := ⟨k - 1, by omega⟩
    simp only [Raft.appendAt]
    rw [h.eq]
    rfl
  intro j e he
  rw [hlen, hs]
  simp only [Raft.appendAt] at he
  split at he
  · rw [List.getElem?_drop, show k + es.length + j = (k + es.length + j - 1) + 1 by omega] at he
    refine (cell_ok hok hidx h hsp he).imp id fun ⟨h1, h2⟩ => ⟨by omega, h2⟩
  · exact spareOK_replicate H (rf.appendAt k es g).log g j e he |>.imp id
      fun ⟨h1, h2⟩ => ⟨by rw [h1, hlen, hs], h2⟩

end DistLabs
