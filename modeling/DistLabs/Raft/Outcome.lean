import DistLabs.Raft.Snapshots

/-!
# What the replication handlers answer

Total descriptions of one exchange between a leader and a follower: the handlers do not panic on
the requests a leader builds, and what they answer is read off the two abstract logs. `Answered`
lists the four answers of `AppendEntries` to a request of the current term, and `Stored` says what
the successful one leaves in the log.
-/

namespace DistLabs

open Lib Chronicle

variable {n : Nat} {α : Type} {m : Mode} {H : Chron n α} {tip : Pos} {rf rf' : Raft n α}
  {V j : Nat}

/-! ## `AppendEntries` -/

/-- The entries of a request are those of the log of term `V` from `prevLogIndex` to `j`. -/
structure Slice (H : Chron n α) (args : AppendEntriesArgs n α) (V j : Nat) : Prop where
  le : j ≤ (H.ledger V).length
  prev_le : args.prevLogIndex ≤ j
  prevTerm : args.prevLogTerm = termAt (H.ledger V) args.prevLogIndex
  entries : args.entries = ((H.ledger V).take j).drop args.prevLogIndex

/-- Arguments that are right are a slice of a leader's log. -/
theorem AppendArgsOK.slice {l : Fin n} {args : AppendEntriesArgs n α}
    (h : AppendArgsOK m H l args V j) : Slice H args V j :=
  ⟨h.le, h.prev_le, h.prevTerm, h.entries⟩

/-- A request reaches to `j`. -/
theorem Slice.length {args : AppendEntriesArgs n α} (h : Slice H args V j) :
    args.prevLogIndex + args.entries.length = j := by
  rw [h.entries, List.length_drop, List.length_take_of_le h.le]
  have := h.prev_le
  omega

/-- What a successful `AppendEntries` leaves: the log, when it holds the request already, or the
log of term `V` up to `j`. -/
structure Stored (H : Chron n α) (tip : Pos) (rf rf' : Raft n α) (V j : Nat) : Prop where
  currentTerm : rf'.currentTerm = rf.currentTerm
  state : rf'.state = rf.state
  sentinel_eq : sentinel rf'.log = sentinel rf.log
  log : rf'.log = rf.log ∧ Overlap H tip (sentinel rf.log) V j j ∨
    LogOK H (posAt (H.ledger V) j) rf'.log ∧ ∃ k, k < j ∧ Overlap H tip (sentinel rf.log) V j k

/-- The branch of `AppendEntries` in which the previous entry matches. -/
theorem Spliced.stored (hok : H.OK) (hidx : Indexed H) (h : LogOK H tip rf.log)
    (htip : ValidPos H.ledger tip) {args : AppendEntriesArgs n α} (ha : Slice H args V j)
    (hterm : rf.getTerm args.prevLogIndex = some args.prevLogTerm) {k : Nat}
    (hskip : Skips rf.log args.entries (args.prevLogIndex + 1) k) (hs : Spliced rf args k rf') :
    Stored H tip rf rf' V j := by
  have hlen := ha.length
  have hlog := hs.log
  rw [ha.entries] at hskip
  rw [ha.prevTerm] at hterm
  have o := hskip.overlap hok hidx h htip ha.le ha.prev_le hterm
  rcases Nat.lt_or_eq_of_le o.le with hlt | rfl
  · rw [if_neg (by omega)] at hlog
    have hsplice : rf'.log = (rf.appendAt (args.prevLogIndex + k + 1 - (sentinel rf.log).index)
        (((H.ledger V).take j).drop (args.prevLogIndex + k)) 0).log := by
      rw [hlog, ha.entries, List.drop_drop, Nat.succ_add]
      rfl
    obtain ⟨h1, h2⟩ := h.overwrite hok ha.le (g := 0) o hlt
    rw [← hsplice] at h1 h2
    exact ⟨hs.currentTerm, hs.state, h2, .inr ⟨h1, _, hlt, o⟩⟩
  · rw [if_pos (by omega)] at hlog
    exact ⟨hs.currentTerm, hs.state, by rw [hlog], .inl ⟨hlog, o⟩⟩

/-- `AppendEntries` stores the entries when the previous one matches. -/
theorem exists_stored (hok : H.OK) (hidx : Indexed H) (h : LogOK H tip rf.log)
    (htip : ValidPos H.ledger tip) {args : AppendEntriesArgs n α} (ha : Slice H args V j) (g : Nat)
    (hterm : rf.getTerm args.prevLogIndex = some args.prevLogTerm) :
    ∃ rf', rf.receiveEntries args g = some (rf', { term := rf.currentTerm, success := true }) ∧
      Stored H tip rf rf' V j := by
  have hcont := h.contiguous hidx
  obtain ⟨rf', reply, hr, hrec⟩ := hcont.exists_receiveEntries args g
  obtain ⟨hfirst, hlast⟩ := hcont.bounds_of_getTerm hterm
  cases hrec with
  | below hprev => exact absurd hprev (Nat.not_lt.2 hfirst)
  | short hprev => exact absurd hlast (Nat.not_lt.2 hprev)
  | conflict ht hne =>
    rw [hterm] at ht
    exact absurd (Option.some.inj ht) hne
  | stored _ hskip hs => exact ⟨rf', hr, hs.stored hok hidx h htip ha hterm hskip⟩

/-- The answers of `AppendEntries` to a request of the current term. -/
inductive Answered (H : Chron n α) (tip : Pos) (rf : Raft n α) (args : AppendEntriesArgs n α)
    (V j : Nat) : Raft n α → AppendEntriesReply → Prop
  /-- The request starts below the snapshot; the reply is left empty. -/
  | below (hprev : args.prevLogIndex < (sentinel rf.log).index) : Answered H tip rf args V j rf {}
  /-- The log is too short. -/
  | short (hprev : tip.index < args.prevLogIndex) :
      Answered H tip rf args V j rf
        { term := rf.currentTerm, conflictIndex := tip.index + 1, conflictTerm := -1 }
  /-- The previous entry is of another term; `r` is the first index of that term. -/
  | conflict {r : Nat} (hfirst : (sentinel rf.log).index ≤ r) (hr : r ≤ args.prevLogIndex)
      (hprev : args.prevLogIndex ≤ tip.index)
      (hne : termAt (H.path tip) args.prevLogIndex ≠ termAt (H.ledger V) args.prevLogIndex)
      (hsame : ∀ i, r ≤ i → i < args.prevLogIndex →
        termAt (H.path tip) i = termAt (H.path tip) args.prevLogIndex) :
      Answered H tip rf args V j rf
        { term := rf.currentTerm, conflictIndex := r
          conflictTerm := termAt (H.path tip) args.prevLogIndex }
  /-- The entries are in the log. -/
  | stored {rf' : Raft n α} (h : Stored H tip rf rf' V j) :
      Answered H tip rf args V j rf' { term := rf.currentTerm, success := true }

/-- The answers, read off the two abstract logs. -/
theorem Received.answered (hok : H.OK) (hidx : Indexed H) (h : LogOK H tip rf.log)
    (htip : ValidPos H.ledger tip) (hc : Clean H tip rf.log) {args : AppendEntriesArgs n α}
    (ha : Slice H args V j) {reply : AppendEntriesReply} (hrec : Received rf args rf' reply) :
    Answered H tip rf args V j rf' reply := by
  have hnext := h.nextOf htip
  have hget : ∀ i, (sentinel rf.log).index ≤ i → i ≤ tip.index →
      rf.getTerm i = some (termAt (H.path tip) i) := fun i => h.getTerm_of_clean htip hc
  cases hrec with
  | below hprev => exact .below hprev
  | short hprev =>
    rw [hnext] at hprev ⊢
    exact .short hprev
  | @conflict t r hterm hne hfirst hr hsame =>
    have hlast := ((h.contiguous hidx).bounds_of_getTerm hterm).2
    have hprev : args.prevLogIndex ≤ tip.index := by omega
    rw [hget _ (Nat.le_trans hfirst hr) hprev] at hterm
    obtain rfl := Option.some.inj hterm
    refine .conflict hfirst hr hprev (fun heq => hne ?_) fun i hi hik => ?_
    · rw [heq, ha.prevTerm]
    · have ht := hsame i hi hik
      rw [hget i (Nat.le_trans hfirst hi) (by omega)] at ht
      exact Option.some.inj ht
  | stored hterm hskip hs => exact .stored (hs.stored hok hidx h htip ha hterm hskip)

/-- `AppendEntries` on a request of the current term. -/
theorem exists_receiveEntries (hok : H.OK) (hidx : Indexed H) (h : LogOK H tip rf.log)
    (htip : ValidPos H.ledger tip) (hc : Clean H tip rf.log) {args : AppendEntriesArgs n α}
    (ha : Slice H args V j) (g : Nat) :
    ∃ rf' reply, rf.receiveEntries args g = some (rf', reply) ∧
      Answered H tip rf args V j rf' reply := by
  obtain ⟨rf', reply, hr, hrec⟩ := (h.contiguous hidx).exists_receiveEntries args g
  exact ⟨rf', reply, hr, hrec.answered hok hidx h htip hc ha⟩

/-! ## `InstallSnapshot` -/

/-- What `InstallSnapshot` leaves when it takes the snapshot: the own log past the snapshot, or
nothing past it. -/
structure Taken (H : Chron n α) (tip : Pos) (rf rf' : Raft n α) (args : InstallSnapshotArgs n)
    (V : Nat) : Prop where
  commit_lt : rf.commitIndex < args.lastIncludedIndex
  currentTerm : rf'.currentTerm = rf.currentTerm
  state : rf'.state = rf.state
  sentinel_eq : sentinel rf'.log = ⟨none, args.lastIncludedTerm, args.lastIncludedIndex⟩
  log : tip.index ≤ args.lastIncludedIndex ∧
      LogOK H (posAt (H.ledger V) args.lastIncludedIndex) rf'.log ∨
    args.lastIncludedIndex < tip.index ∧ LogOK H tip rf'.log

/-- The answers, read off the abstract log and the sender's. -/
theorem Replaced.taken (hok : H.OK) (h : LogOK H tip rf.log) (htip : ValidPos H.ledger tip)
    (hfirst : (sentinel rf.log).index ≤ rf.commitIndex) {args : InstallSnapshotArgs n}
    (hle : args.lastIncludedIndex ≤ (H.ledger V).length)
    (hterm : args.lastIncludedTerm = termAt (H.ledger V) args.lastIncludedIndex)
    {msg : Option (ApplyMsg α)} (hrep : Replaced rf args rf' msg) :
    args.lastIncludedIndex ≤ rf.commitIndex ∧ rf' = rf ∨ Taken H tip rf rf' args V := by
  have hvalid := hok.ledger.validPos_posAt hle
  rw [posAt, ← hterm] at hvalid
  have hnext := h.nextOf htip
  cases hrep with
  | known hold => exact .inl ⟨hold, rfl⟩
  | whole hci hlast =>
    refine .inr ⟨hci, rfl, rfl, rfl, .inl ⟨by omega, ?_⟩⟩
    refine ⟨?_, rfl, hvalid, Nat.le_refl _, fun _ => by rw [posAt, ← hterm]; rfl⟩
    show _ :: [] = _ :: _
    congr 1
    refine (List.drop_eq_nil_of_le ?_).symm
    rw [(hok.ledger.validPos_posAt hle).length_pathTo]
    exact Nat.le_refl _
  | suffix g hci hlast =>
    have hlast : args.lastIncludedIndex < tip.index := by omega
    refine .inr ⟨hci, rfl, rfl, rfl, .inr ⟨hlast, ?_⟩⟩
    refine ⟨?_, rfl, hvalid, Nat.le_of_lt hlast, fun heq => absurd heq (Nat.ne_of_lt hlast)⟩
    show _ :: rf.log.drop _ = _ :: _
    rw [h.drop (by omega), Nat.add_sub_cancel]
    rfl

/-- `InstallSnapshot` on a request of the current term. -/
theorem exists_receiveSnapshot (hok : H.OK) (hidx : Indexed H) (h : LogOK H tip rf.log)
    (htip : ValidPos H.ledger tip) (hfirst : (sentinel rf.log).index ≤ rf.commitIndex)
    (args : InstallSnapshotArgs n) (hle : args.lastIncludedIndex ≤ (H.ledger V).length)
    (hterm : args.lastIncludedTerm = termAt (H.ledger V) args.lastIncludedIndex) (g : Nat) :
    ∃ rf' msg, rf.receiveSnapshot args g = some (rf', msg) ∧
      (args.lastIncludedIndex ≤ rf.commitIndex ∧ rf' = rf ∨ Taken H tip rf rf' args V) := by
  obtain ⟨rf', msg, hr, hrep⟩ := (h.contiguous hidx).exists_receiveSnapshot hfirst args g
  exact ⟨rf', msg, hr, hrep.taken hok h htip hfirst hle hterm⟩

/-! ## The leader -/

/-- The backward scan for the last entry of the conflicting term. -/
theorem exists_conflictEnd (hok : H.OK) (hidx : Indexed H) (h : LogOK H tip rf.log)
    (htip : ValidPos H.ledger tip) (hc : Clean H tip rf.log) (t : Nat) {k : Nat}
    (hk : k ≤ tip.index + 1) :
    ∃ e : Int, rf.conflictEnd (sentinel rf.log).index t k = some e ∧
      (e = -1 ∧ (∀ i, (sentinel rf.log).index ≤ i → i < k → termAt (H.path tip) i ≠ t) ∨
        ∃ i : Nat, e = i ∧ (sentinel rf.log).index ≤ i ∧ i < k ∧ termAt (H.path tip) i = t ∧
          ∀ i', i < i' → i' < k → termAt (H.path tip) i' ≠ t) := by
  have hget : ∀ i t, rf.getTerm i = some t →
      (sentinel rf.log).index ≤ i ∧ i ≤ tip.index ∧ termAt (H.path tip) i = t := by
    intro i t ht
    obtain ⟨hfirst, hlast⟩ := (h.contiguous hidx).bounds_of_getTerm ht
    rw [h.nextOf htip] at hlast
    have hle := Nat.le_of_lt_succ hlast
    rw [h.getTerm_of_clean htip hc hfirst hle] at ht
    exact ⟨hfirst, hle, Option.some.inj ht⟩
  obtain ⟨e, b, he, hb, hgt, hcase⟩ := (h.contiguous hidx).exists_conflictEnd t (k := k)
    (by rw [h.nextOf htip]; exact hk)
  have habove : ∀ i, b ≤ i → i < k → termAt (H.path tip) i ≠ t := by
    intro i hi hik heq
    obtain ⟨u, hu, hlt⟩ := hgt i hi hik
    obtain ⟨_, _, hut⟩ := hget i u hu
    omega
  refine ⟨e, he, ?_⟩
  rcases hcase with ⟨rfl, hfirst⟩ | ⟨rfl, i, u, rfl, hu, hlt⟩ | ⟨i, u, rfl, rfl, hu, heq⟩
  · exact .inl ⟨rfl, fun i hi hik => habove i (Nat.le_trans hfirst hi) hik⟩
  · -- terms do not decrease, so there is no entry of the term below either
    obtain ⟨_, hi, hut⟩ := hget i u hu
    refine .inl ⟨rfl, fun i' hi' hik heq => ?_⟩
    rcases Nat.lt_or_ge i i' with hlt' | hge
    · exact habove i' hlt' hik heq
    · have := termAt_path_mono hok htip hge hi
      omega
  · obtain ⟨hfirst, _, hut⟩ := hget i u hu
    exact .inr ⟨i, rfl, hfirst, hb, by omega, fun i' hi' hik => habove i' hi' hik⟩

end DistLabs
