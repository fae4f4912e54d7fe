import DistLabs.Lib.Window
import DistLabs.Raft.Elections

/-!
# Contiguous logs

The accessors of `raft.go` subtract `log[0].Index` from a real index, which is right for a log
whose entries carry consecutive indices (`Contiguous`). This module says what the accessors, the
scans and the handlers do on such a log, with no assumption on where the log or the request come
from: none of them panics. `Received` and `Replaced` list the answers of `AppendEntries` and
`InstallSnapshot`.
-/

namespace DistLabs

open Lib

variable {n : Nat} {α : Type} {rf : Raft n α} {log : List (LogEntry α)}

/-- `log[k].Index = log[0].Index + k`, and there is a `log[0]`. -/
structure Contiguous (log : List (LogEntry α)) : Prop where
  ne_nil : log ≠ []
  index_eq : ∀ (k : Nat) (e : LogEntry α), log[k]? = some e → e.index = (sentinel log).index + k

/-- The definition in a form that can be decided. -/
theorem contiguous_iff : Contiguous log ↔
    log ≠ [] ∧ ∀ k : Fin log.length, log[k].index = (sentinel log).index + k := by
  constructor
  · intro h
    exact ⟨h.ne_nil, fun k => h.index_eq k _ (List.getElem?_eq_getElem k.2)⟩
  · rintro ⟨hne, hidx⟩
    refine ⟨hne, fun k e he => ?_⟩
    obtain ⟨hk, rfl⟩ := List.getElem?_eq_some_iff.1 he
    exact hidx ⟨k, hk⟩

instance decidableContiguous (log : List (LogEntry α)) : Decidable (Contiguous log) :=
  decidable_of_iff _ contiguous_iff.symm

/-- The entry of a log at index `i`. -/
def entryAt (log : List (LogEntry α)) (i : Nat) : Option (LogEntry α) :=
  window (sentinel log).index log i

/-- The index after the last entry. -/
def nextOf (log : List (LogEntry α)) : Nat := (sentinel log).index + log.length

/-- An entry is found only between the sentinel and the end of the log. -/
theorem bounds_of_entryAt {i : Nat} {e : LogEntry α} (h : entryAt log i = some e) :
    (sentinel log).index ≤ i ∧ i < nextOf log := bounds_of_window h

/-- Between the sentinel and the end of the log there is an entry at every index. -/
theorem exists_entryAt {i : Nat} (h : (sentinel log).index ≤ i) (h' : i < nextOf log) :
    ∃ e, entryAt log i = some e := exists_window h h'

/-! ## The accessors -/

namespace Contiguous

section
variable (h : Contiguous log)
include h

theorem eq_cons : log = sentinel log :: log.tail := by
  have hne := h.ne_nil
  cases log with
  | nil => exact absurd rfl hne
  | cons => rfl

theorem length_pos : 0 < log.length := List.length_pos_iff.2 h.ne_nil

theorem first_lt : (sentinel log).index < nextOf log := by
  have := h.length_pos
  rw [nextOf]
  omega

/-- Entries carry the index at which they are read. -/
theorem index_of_entryAt {i : Nat} {e : LogEntry α} (he : entryAt log i = some e) :
    e.index = i := by
  obtain ⟨hle, hget⟩ := window_eq_some_iff.1 he
  have := h.index_eq _ _ hget
  omega

end

variable (h : Contiguous rf.log)
include h

/-- The log of a server that enters the term of a request. -/
theorem stepDown (t : Nat) : Contiguous (rf.stepDown t).toFollower.log := by
  rw [show (rf.stepDown t).toFollower.log = rf.log from stepDown_log ..]
  exact h

/-- `getFirstIndex` is the index of the sentinel. -/
theorem getFirstIndex : rf.getFirstIndex = some (sentinel rf.log).index := by
  rw [Raft.getFirstIndex, h.eq_cons]
  rfl

/-- `getFirstTerm` is the term of the sentinel. -/
theorem getFirstTerm : rf.getFirstTerm = some (sentinel rf.log).term := by
  rw [Raft.getFirstTerm, h.eq_cons]
  rfl

/-- The last entry has the index before the next one. -/
theorem getLast? : ∃ e, rf.log.getLast? = some e ∧ e.index + 1 = nextOf rf.log := by
  have hpos := h.length_pos
  rw [List.getLast?_eq_getElem?]
  have hget := List.getElem?_eq_getElem (show rf.log.length - 1 < rf.log.length by omega)
  refine ⟨_, hget, ?_⟩
  rw [h.index_eq _ _ hget, nextOf]
  omega

/-- `getLastIndex` is the index before the next one. -/
theorem getLastIndex : rf.getLastIndex = some (nextOf rf.log - 1) := by
  obtain ⟨e, he, hi⟩ := h.getLast?
  rw [Raft.getLastIndex, he, ← hi]
  rfl

/-- `getNextIndex` is the next index. -/
theorem getNextIndex : rf.getNextIndex = some (nextOf rf.log) := by
  obtain ⟨e, he, hi⟩ := h.getLast?
  rw [Raft.getNextIndex, Raft.getLastIndex, he, ← hi]
  rfl

/-- `getTerm` is the term of the entry at an index, and panics if there is none. -/
theorem getTerm (i : Nat) : rf.getTerm i = (entryAt rf.log i).map (·.term) := by
  rw [Raft.getTerm, h.getFirstIndex, Option.bind_eq_bind, Option.bind_some, entryAt, window]
  split <;> rfl

/-- The subscript of `getTerm` is in range. -/
theorem exists_getTerm {i : Nat} (hi : (sentinel rf.log).index ≤ i) (hi' : i < nextOf rf.log) :
    ∃ t, rf.getTerm i = some t := by
  obtain ⟨e, he⟩ := exists_entryAt hi hi'
  exact ⟨e.term, by rw [h.getTerm, he]; rfl⟩

/-- `getTerm` answers only between the sentinel and the end of the log. -/
theorem bounds_of_getTerm {i t : Nat} (ht : rf.getTerm i = some t) :
    (sentinel rf.log).index ≤ i ∧ i < nextOf rf.log := by
  rw [h.getTerm, Option.map_eq_some_iff] at ht
  obtain ⟨e, he, _⟩ := ht
  exact bounds_of_entryAt he

/-! ## The scans -/

/-- The loop that looks for the first index of the conflicting term: from `r` on, below `k`, all
entries are of that term. -/
theorem exists_conflictStart (t : Nat) {k : Nat} (hk : (sentinel rf.log).index ≤ k)
    (hk' : k ≤ nextOf rf.log) :
    ∃ r, rf.conflictStart t k = some r ∧ (sentinel rf.log).index ≤ r ∧ r ≤ k ∧
      ∀ i, r ≤ i → i < k → rf.getTerm i = some t := by
  induction k with
  | zero => exact ⟨0, rfl, hk, Nat.le_refl _, fun i _ hi => absurd hi (Nat.not_lt_zero i)⟩
  | succ k ih =>
    have hstop : ∀ i, k + 1 ≤ i → i < k + 1 → rf.getTerm i = some t := fun i h1 h2 => by omega
    rw [Raft.conflictStart, h.getFirstIndex, Option.bind_eq_bind, Option.bind_some]
    split
    · exact ⟨k + 1, rfl, hk, Nat.le_refl _, hstop⟩
    next hfirst =>
    obtain ⟨u, hu⟩ := h.exists_getTerm (Nat.le_of_not_lt hfirst) hk'
    rw [hu, Option.bind_some]
    split
    · exact ⟨k + 1, rfl, hk, Nat.le_refl _, hstop⟩
    · next hterm =>
      obtain ⟨r, hr, h1, h2, h3⟩ := ih (Nat.le_of_not_lt hfirst) (Nat.le_of_succ_le hk')
      refine ⟨r, hr, h1, Nat.le_succ_of_le h2, fun i hi hik => ?_⟩
      rcases Nat.lt_or_eq_of_le (Nat.le_of_lt_succ hik) with hlt | rfl
      · exact h3 i hi hlt
      · rw [hu, not_not.1 hterm]

/-- The backward scan for the last entry of the conflicting term goes down to `b`, over entries of
larger terms, and stops at an entry of that term, at one of a smaller term, or at the sentinel. -/
theorem exists_conflictEnd (ct : Int) {k : Nat} (hk : k ≤ nextOf rf.log) :
    ∃ (e : Int) (b : Nat), rf.conflictEnd (sentinel rf.log).index ct k = some e ∧ b ≤ k ∧
      (∀ i, b ≤ i → i < k → ∃ t : Nat, rf.getTerm i = some t ∧ ct < t) ∧
      (e = -1 ∧ b ≤ (sentinel rf.log).index ∨
        e = -1 ∧ (∃ (i t : Nat), b = i + 1 ∧ rf.getTerm i = some t ∧ t < ct) ∨
        ∃ (i t : Nat), e = i ∧ b = i + 1 ∧ rf.getTerm i = some t ∧ t = ct) := by
  induction k with
  | zero =>
    exact ⟨-1, 0, rfl, Nat.le_refl _, fun i _ hi => absurd hi (Nat.not_lt_zero i),
      .inl ⟨rfl, Nat.zero_le _⟩⟩
  | succ k ih =>
    have hstop : ∀ i, k + 1 ≤ i → i < k + 1 → ∃ t : Nat, rf.getTerm i = some t ∧ ct < t :=
      fun i h1 h2 => by omega
    rw [Raft.conflictEnd]
    split
    · next hfirst => exact ⟨-1, k + 1, rfl, Nat.le_refl _, hstop, .inl ⟨rfl, hfirst⟩⟩
    next hfirst =>
    obtain ⟨u, hu⟩ := h.exists_getTerm (Nat.le_of_not_lt hfirst) hk
    rw [hu, Option.bind_eq_bind, Option.bind_some]
    split
    · next heq =>
      exact ⟨k, k + 1, rfl, Nat.le_refl _, hstop, .inr (.inr ⟨k, u, rfl, rfl, hu, heq⟩)⟩
    next hne =>
    split
    · next hlt =>
      exact ⟨-1, k + 1, rfl, Nat.le_refl _, hstop, .inr (.inl ⟨rfl, k, u, rfl, hu, hlt⟩)⟩
    · next hge =>
      obtain ⟨e, b, he, hb, hgt, hcase⟩ := ih (Nat.le_of_succ_le hk)
      refine ⟨e, b, he, Nat.le_succ_of_le hb, fun i hi hik => ?_, hcase⟩
      rcases Nat.lt_or_eq_of_le (Nat.le_of_lt_succ hik) with hlt | rfl
      · exact hgt i hi hlt
      · exact ⟨u, hu, Int.lt_iff_le_and_ne.2 ⟨Int.not_lt.1 hge, fun heq => hne heq.symm⟩⟩

/-- The counting loop does not panic. -/
theorem exists_advanceCommit (hfirst : (sentinel rf.log).index ≤ rf.commitIndex) (me : Fin n) :
    ∃ ci assigned, rf.advanceCommit me = some ({ rf with commitIndex := ci }, assigned) := by
  have hloop : ∀ is : List Nat, (∀ i ∈ is, ∃ t, rf.getTerm i = some t) →
      ∃ assigned, rf.commitLoop me is = some assigned := by
    intro is
    induction is with
    | nil => exact fun _ => ⟨[], rfl⟩
    | cons i is ih =>
      intro hterm
      obtain ⟨t, ht⟩ := hterm i List.mem_cons_self
      obtain ⟨assigned, hr⟩ := ih fun k hk => hterm k (List.mem_cons_of_mem i hk)
      rw [Raft.commitLoop, ht, Option.bind_eq_bind, Option.bind_some, hr]
      split
      · split
        · exact ⟨i :: assigned, rfl⟩
        · exact ⟨[], rfl⟩
      · exact ⟨assigned, rfl⟩
  obtain ⟨assigned, hr⟩ := hloop
    (List.range' (rf.commitIndex + 1) (nextOf rf.log - (rf.commitIndex + 1))) fun i hi => by
      rw [List.mem_range'_1] at hi
      exact h.exists_getTerm (by omega) (by omega)
  rw [Raft.advanceCommit, h.getNextIndex, Option.bind_eq_bind, Option.bind_some, hr]
  exact ⟨_, assigned, rfl⟩

end Contiguous

/-! ## `AppendEntries` -/

/-- Of the entries `es`, which are to stand from index `ins` on, the log holds the first `k` by
their terms, and not the next one. -/
structure Skips (log es : List (LogEntry α)) (ins k : Nat) : Prop where
  le : k ≤ es.length
  next_le : ins + k ≤ nextOf log
  held : ∀ j, j < k → ∃ e e', entryAt log (ins + j) = some e ∧ es[j]? = some e' ∧ e.term = e'.term
  stop : ∀ e e', entryAt log (ins + k) = some e → es[k]? = some e' → e.term ≠ e'.term

namespace Contiguous

variable (h : Contiguous rf.log)
include h

/-- The loop that skips the entries that the log holds. -/
theorem exists_skipMatched (es : List (LogEntry α)) {ins : Nat}
    (hins : (sentinel rf.log).index ≤ ins) (hins' : ins ≤ nextOf rf.log) :
    ∃ k, rf.skipMatched es ins = some (ins + k, es.drop k) ∧ Skips rf.log es ins k := by
  induction es generalizing ins with
  | nil =>
    exact ⟨0, rfl, Nat.le_refl _, hins', fun j hj => absurd hj (Nat.not_lt_zero j),
      fun e e' _ he' => by cases he'⟩
  | cons x es ih =>
    rw [Raft.skipMatched, h.getNextIndex, Option.bind_eq_bind, Option.bind_some]
    split
    · next hend =>
      refine ⟨0, rfl, Nat.zero_le _, hins', fun j hj => absurd hj (Nat.not_lt_zero j), ?_⟩
      intro e e' he _
      have := (bounds_of_entryAt he).2
      omega
    next hlt =>
    obtain ⟨y, hy⟩ := exists_entryAt hins (Nat.lt_of_not_le hlt)
    rw [h.getTerm, hy, Option.map_some, Option.bind_some]
    split
    · next hne =>
      refine ⟨0, rfl, Nat.zero_le _, hins', fun j hj => absurd hj (Nat.not_lt_zero j), ?_⟩
      intro e e' he he'
      rw [Nat.add_zero, hy] at he
      cases he
      cases he'
      exact hne
    · next heq =>
      obtain ⟨k, hr, hs⟩ := ih (Nat.le_succ_of_le hins) (Nat.lt_of_not_le hlt)
      have hshift : ∀ j, ins + 1 + j = ins + (j + 1) := fun j => by omega
      refine ⟨k + 1, ?_, Nat.succ_le_succ hs.le, ?_, fun j hj => ?_, fun e e' he he' => ?_⟩
      · rw [hr, hshift]
        rfl
      · rw [← hshift]
        exact hs.next_le
      · cases j with
        | zero => exact ⟨y, x, hy, rfl, not_not.1 heq⟩
        | succ j =>
          obtain ⟨e, e', he, he', ht⟩ := hs.held j (Nat.lt_of_succ_lt_succ hj)
          exact ⟨e, e', by rw [← hshift]; exact he, he', ht⟩
      · exact hs.stop e e' (by rw [hshift]; exact he) he'

end Contiguous

/-- What `AppendEntries` leaves when the previous entry matches and the log holds the first `k` of
the request's entries. -/
structure Spliced (rf : Raft n α) (args : AppendEntriesArgs n α) (k : Nat) (rf' : Raft n α) :
    Prop where
  state : rf'.state = rf.state
  currentTerm : rf'.currentTerm = rf.currentTerm
  commit : rf'.commitIndex = rf.commitIndex ∨ rf'.commitIndex ≤ args.leaderCommit
  log : rf'.log = if k = args.entries.length then rf.log
    else rf.log.take (args.prevLogIndex + 1 + k - (sentinel rf.log).index) ++ args.entries.drop k

/-- The answers of `AppendEntries` to a request of the current term. -/
inductive Received (rf : Raft n α) (args : AppendEntriesArgs n α) :
    Raft n α → AppendEntriesReply → Prop
  /-- The request starts below the snapshot; the reply is left empty. -/
  | below (hprev : args.prevLogIndex < (sentinel rf.log).index) : Received rf args rf {}
  /-- The log is too short. -/
  | short (hprev : nextOf rf.log ≤ args.prevLogIndex) :
      Received rf args rf
        { term := rf.currentTerm, conflictIndex := nextOf rf.log, conflictTerm := -1 }
  /-- The previous entry is of another term, which all entries from `r` on have. -/
  | conflict {t r : Nat} (hterm : rf.getTerm args.prevLogIndex = some t)
      (hne : args.prevLogTerm ≠ t) (hfirst : (sentinel rf.log).index ≤ r)
      (hr : r ≤ args.prevLogIndex)
      (hsame : ∀ i, r ≤ i → i < args.prevLogIndex → rf.getTerm i = some t) :
      Received rf args rf { term := rf.currentTerm, conflictIndex := r, conflictTerm := t }
  /-- The entries are in the log. -/
  | stored {rf' : Raft n α} {k : Nat}
      (hterm : rf.getTerm args.prevLogIndex = some args.prevLogTerm)
      (hskip : Skips rf.log args.entries (args.prevLogIndex + 1) k)
      (h : Spliced rf args k rf') :
      Received rf args rf' { term := rf.currentTerm, success := true }

/-- Following the commit index changes nothing else. -/
theorem followCommit_state (rf : Raft n α) (last lc : Nat) :
    (rf.followCommit last lc).log = rf.log ∧
      (rf.followCommit last lc).currentTerm = rf.currentTerm ∧
      (rf.followCommit last lc).state = rf.state ∧
      ((rf.followCommit last lc).commitIndex = rf.commitIndex ∨
        (rf.followCommit last lc).commitIndex ≤ lc) := by
  rw [Raft.followCommit]
  split
  · exact ⟨rfl, rfl, rfl, .inr (Nat.min_le_right ..)⟩
  · exact ⟨rfl, rfl, rfl, .inl rfl⟩

namespace Contiguous

variable (h : Contiguous rf.log) {args : AppendEntriesArgs n α}
include h

/-- The branch of `AppendEntries` in which the previous entry matches. -/
theorem exists_storeEntries (g : Nat)
    (hterm : rf.getTerm args.prevLogIndex = some args.prevLogTerm) :
    ∃ rf' k, rf.storeEntries args (sentinel rf.log).index g =
        some (rf', { term := rf.currentTerm, success := true }) ∧
      Skips rf.log args.entries (args.prevLogIndex + 1) k ∧ Spliced rf args k rf' := by
  obtain ⟨hfirst, hlast⟩ := h.bounds_of_getTerm hterm
  obtain ⟨k, hskip, hs⟩ := h.exists_skipMatched args.entries (Nat.le_succ_of_le hfirst) hlast
  simp only [Raft.storeEntries, hskip, Option.bind_eq_bind, Option.bind_some, Option.pure_def,
    Raft.overwrite, List.drop_eq_nil_iff]
  rcases Nat.lt_or_eq_of_le hs.le with hlt | rfl
  · -- the slice that is kept has the sentinel, and what is appended is not empty
    rw [if_neg (Nat.not_le.2 hlt)]
    obtain ⟨next, hnext⟩ : ∃ next,
      (rf.appendAt (args.prevLogIndex + 1 + k - (sentinel rf.log).index)
        (args.entries.drop k) g).getNextIndex = some next := by
      have hne : rf.log.take (args.prevLogIndex + 1 + k - (sentinel rf.log).index) ++
          args.entries.drop k ≠ [] := by
        intro heq
        rw [List.append_eq_nil_iff, List.drop_eq_nil_iff] at heq
        exact Nat.not_le.2 hlt heq.2
      exact ⟨_, by rw [Raft.getNextIndex, Raft.getLastIndex, Raft.appendAt,
        List.getLast?_eq_some_getLast hne]; rfl⟩
    rw [hnext, Option.bind_some, if_neg (Nat.not_le.2 hlt)]
    obtain ⟨h1, h2, h3, h4⟩ := followCommit_state
      (rf.appendAt (args.prevLogIndex + 1 + k - (sentinel rf.log).index) (args.entries.drop k) g)
      (next - 1) args.leaderCommit
    refine ⟨_, k, rfl, hs, h3, h2, h4, ?_⟩
    rw [if_neg (Nat.ne_of_lt hlt)]
    exact h1
  · rw [if_pos (Nat.le_refl _), h.getNextIndex, Option.bind_some, if_pos (Nat.le_refl _)]
    obtain ⟨h1, h2, h3, h4⟩ := followCommit_state rf (nextOf rf.log - 1) args.leaderCommit
    refine ⟨_, args.entries.length, rfl, hs, h3, h2, h4, ?_⟩
    rw [if_pos rfl]
    exact h1

/-- `AppendEntries` on a request of the current term does not panic. -/
theorem exists_receiveEntries (args : AppendEntriesArgs n α) (g : Nat) :
    ∃ rf' reply, rf.receiveEntries args g = some (rf', reply) ∧ Received rf args rf' reply := by
  simp only [Raft.receiveEntries, h.getFirstIndex, h.getNextIndex, Option.bind_eq_bind,
    Option.bind_some, Option.pure_def]
  split
  · next hprev => exact ⟨_, _, rfl, .below hprev⟩
  next hfirst =>
  have hfirst := Nat.le_of_not_lt hfirst
  split
  · next hprev => exact ⟨_, _, rfl, .short hprev⟩
  next hlast =>
  obtain ⟨t, ht⟩ := h.exists_getTerm hfirst (Nat.lt_of_not_le hlast)
  rw [ht, Option.bind_some]
  split
  · next heq =>
    rw [← heq] at ht
    obtain ⟨rf', k, hr, hskip, hs⟩ := h.exists_storeEntries g ht
    exact ⟨rf', _, hr, .stored ht hskip hs⟩
  · next hne =>
    obtain ⟨r, hr, h1, h2, h3⟩ := h.exists_conflictStart t hfirst
      (Nat.le_of_lt (Nat.lt_of_not_le hlast))
    rw [hr]
    exact ⟨_, _, rfl, .conflict ht hne h1 h2 h3⟩

/-- `AppendEntries` does not panic. A server that is dead, or in a later term than the request,
does not change. -/
theorem exists_appendEntries (args : AppendEntriesArgs n α) (g : Nat) :
    ∃ rf' reply, rf.appendEntries args g = some (rf', reply) ∧
      ((rf.state = .dead ∨ args.term < rf.currentTerm) ∧ rf' = rf ∧ reply.success = false ∧
          reply.conflictIndex = 0 ∨
        rf.state ≠ .dead ∧ rf.currentTerm ≤ args.term ∧
          (rf.stepDown args.term).toFollower.currentTerm = args.term ∧
          Received (rf.stepDown args.term).toFollower args rf' reply) := by
  rw [Raft.appendEntries]
  split
  · next hdead => exact ⟨_, _, rfl, .inl ⟨.inl hdead, rfl, rfl, rfl⟩⟩
  next halive =>
  have hle := le_stepDown_currentTerm rf args.term
  split
  · next hterm =>
    refine ⟨_, _, rfl, .inl ⟨.inr ?_, stepDown_eq_self hterm, rfl, rfl⟩⟩
    rw [Raft.stepDown] at hterm
    split at hterm
    · exact absurd rfl hterm
    · omega
  · next hterm =>
    rw [not_not] at hterm
    obtain ⟨rf', reply, hr, hrec⟩ := (h.stepDown args.term).exists_receiveEntries args g
    exact ⟨rf', reply, hr, .inr ⟨halive, by omega, hterm.symm, hrec⟩⟩

end Contiguous

/-! ## `InstallSnapshot` -/

/-- The answers of `InstallSnapshot` to a request of the current term. -/
inductive Replaced (rf : Raft n α) (args : InstallSnapshotArgs n) :
    Raft n α → Option (ApplyMsg α) → Prop
  /-- The server committed that much already. -/
  | known (hold : args.lastIncludedIndex ≤ rf.commitIndex) : Replaced rf args rf none
  /-- The snapshot covers the log. -/
  | whole (hci : rf.commitIndex < args.lastIncludedIndex)
      (hlast : nextOf rf.log ≤ args.lastIncludedIndex + 1) :
      Replaced rf args (rf.replaceLog args [] [])
        (some (.snapshot args.snapshot args.lastIncludedTerm args.lastIncludedIndex))
  /-- The log goes on after the snapshot. -/
  | suffix (g : Nat) (hci : rf.commitIndex < args.lastIncludedIndex)
      (hlast : args.lastIncludedIndex + 1 < nextOf rf.log) :
      Replaced rf args
        (rf.replaceLog args (rf.log.drop (args.lastIncludedIndex + 1 - (sentinel rf.log).index))
          (List.replicate g .zero))
        (some (.snapshot args.snapshot args.lastIncludedTerm args.lastIncludedIndex))

namespace Contiguous

variable (h : Contiguous rf.log) (hfirst : (sentinel rf.log).index ≤ rf.commitIndex)
include h hfirst

/-- `InstallSnapshot` on a request of the current term does not panic, on a log that does not start
above `commitIndex`. -/
theorem exists_receiveSnapshot (args : InstallSnapshotArgs n) (g : Nat) :
    ∃ rf' msg, rf.receiveSnapshot args g = some (rf', msg) ∧ Replaced rf args rf' msg := by
  have hpos := h.first_lt
  simp only [Raft.receiveSnapshot, h.getLastIndex, h.getFirstIndex, Option.bind_eq_bind,
    Option.bind_some, Option.pure_def]
  split
  · next hold => exact ⟨_, _, rfl, .known hold⟩
  next hci =>
  have hci := Nat.lt_of_not_le hci
  split
  · next hlast => exact ⟨_, _, rfl, .whole hci (by omega)⟩
  next hlast =>
  have hlt : args.lastIncludedIndex - (sentinel rf.log).index < rf.log.length := by
    rw [nextOf] at hlast
    omega
  rw [if_neg (by omega), List.drop_eq_getElem_cons hlt,
    ← Nat.sub_add_comm (Nat.le_trans hfirst (Nat.le_of_lt hci))]
  exact ⟨_, _, rfl, .suffix g hci (by omega)⟩

/-- `InstallSnapshot` does not panic. A server that is dead, or in a later term than the request,
does not change. -/
theorem exists_installSnapshot (args : InstallSnapshotArgs n) (g : Nat) :
    ∃ rf' reply msg, rf.installSnapshot args g = some (rf', reply, msg) ∧
      (rf' = rf ∧ (rf.state = .dead ∧ reply.term = 0 ∨ reply.term ≠ args.term) ∨
        (rf.stepDown args.term).toFollower.currentTerm = args.term ∧
          Replaced (rf.stepDown args.term).toFollower args rf' msg) := by
  rw [Raft.installSnapshot]
  split
  · next hdead => exact ⟨_, _, _, rfl, .inl ⟨rfl, .inl ⟨hdead, rfl⟩⟩⟩
  split
  · next hterm => exact ⟨_, _, _, rfl, .inl ⟨stepDown_eq_self hterm, .inr (Ne.symm hterm)⟩⟩
  · next hterm =>
    have hci : (sentinel (rf.stepDown args.term).toFollower.log).index ≤
        (rf.stepDown args.term).toFollower.commitIndex := by
      rw [show (rf.stepDown args.term).toFollower.log = rf.log from stepDown_log ..]
      exact Nat.le_trans hfirst (Nat.le_of_eq (stepDown_commitIndex ..).symm)
    obtain ⟨rf', msg, hr, hrep⟩ := (h.stepDown args.term).exists_receiveSnapshot hci args g
    rw [hr]
    exact ⟨_, _, _, rfl, .inr ⟨(not_not.1 hterm).symm, hrep⟩⟩

end Contiguous

/-! ## Requests and rejections -/

/-- The `nextIndex` that `backUp` computes. -/
theorem backUp_eq {server : Fin n} {args : AppendEntriesArgs n α} {reply : AppendEntriesReply}
    {first : Nat} {last : Int} (hfirst : rf.getFirstIndex = some first)
    (hlast : (if reply.conflictTerm > 0 then
      rf.conflictEnd first reply.conflictTerm args.prevLogIndex else some (-1)) = some last) :
    rf.backUp server args reply = some { rf with
      nextIndex := Function.update rf.nextIndex server (if last > 0 then last.toNat + 1
        else max reply.conflictIndex (rf.matchIndex server + 1)) } := by
  rw [Raft.backUp, hfirst, Option.bind_eq_bind, Option.bind_some, hlast]
  rfl

section
variable {me server : Fin n} {term : Nat}

/-- An `AppendEntries` request carries the captured term, the term of an entry of the log, and all
entries after it. -/
theorem Contiguous.of_buildRequest_append (hc : Contiguous rf.log) {args : AppendEntriesArgs n α}
    (h : rf.buildRequest me server term = some (some (.append args))) :
    args.term = term ∧ rf.getTerm args.prevLogIndex = some args.prevLogTerm ∧
      args.entries = rf.log.drop (args.prevLogIndex + 1 - (sentinel rf.log).index) := by
  simp only [Raft.buildRequest, hc.getFirstIndex, hc.getNextIndex, Option.bind_eq_bind,
    Option.bind_some] at h
  split at h
  · cases h
  split at h
  · rw [Option.bind_eq_some_iff] at h
    obtain ⟨_, _, h⟩ := h
    cases h
  next hnext =>
  split at h
  · cases h
  rw [Option.bind_eq_some_iff] at h
  obtain ⟨t, ht, h⟩ := h
  cases h
  refine ⟨rfl, ht, ?_⟩
  -- the slice that is copied is as long as the one that was made
  have hlen : nextOf rf.log - rf.nextIndex server =
      (rf.log.drop (rf.nextIndex server - (sentinel rf.log).index)).length := by
    rw [List.length_drop, nextOf]
    omega
  show List.takeD _ _ _ = List.drop (rf.nextIndex server - 1 + 1 - _) _
  rw [List.takeD_eq_take _ (Nat.le_of_eq hlen), hlen, List.take_length,
    Nat.sub_add_cancel (by omega)]

/-- An `InstallSnapshot` request carries the captured term and names the sentinel. -/
theorem of_buildRequest_snapshot {args : InstallSnapshotArgs n}
    (h : rf.buildRequest me server term = some (some (.snapshot args))) :
    args.term = term ∧ rf.getFirstTerm = some args.lastIncludedTerm := by
  simp only [Raft.buildRequest, Option.bind_eq_bind] at h
  split at h
  · cases h
  rw [Option.bind_eq_some_iff] at h
  obtain ⟨first, _, h⟩ := h
  split at h
  · rw [Option.bind_eq_some_iff] at h
    obtain ⟨t, ht, h⟩ := h
    cases h
    exact ⟨rfl, ht⟩
  rw [Option.bind_eq_some_iff] at h
  obtain ⟨next, _, h⟩ := h
  split at h
  · cases h
  rw [Option.bind_eq_some_iff] at h
  obtain ⟨t, ht, h⟩ := h
  cases h

end

/-! ## The logs of servers -/

/-- A log that is a compacted abstract log is contiguous. -/
theorem LogOK.contiguous {H : Chron n α} {tip : Pos} (h : LogOK H tip rf.log) (hidx : Indexed H) :
    Contiguous rf.log where
  ne_nil := by
    rw [h.eq]
    exact List.cons_ne_nil _ _
  index_eq := by
    intro k e he
    cases k with
    | zero =>
      rw [h.getElem?_zero] at he
      cases he
      rfl
    | succ k =>
      rw [h.getElem?_succ] at he
      rw [hidx.path he]
      omega

/-- It ends where the abstract log does. -/
theorem LogOK.nextOf {H : Chron n α} {tip : Pos} (h : LogOK H tip rf.log)
    (htip : ValidPos H.ledger tip) : nextOf rf.log = tip.index + 1 := by
  have := h.le
  rw [DistLabs.nextOf, h.length htip]
  omega

end DistLabs
