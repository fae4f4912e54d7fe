import DistLabs.Raft.Contiguous

/-!
# Reordered and repeated `AppendEntries`

A follower gets slices of a leader's log `l` in any order, any of them any number of times. What a
request does to the follower's log is that the log is spliced with the slice after the entries it
holds already (`EntriesMatch.splice`): it then equals `l` up to the end of the request, and no
entry that was equal to one of `l` is touched. So a run of such requests keeps what any of them
achieved.
-/

namespace DistLabs

open Lib

variable {n : Nat} {α : Type} {rf rf' : Raft n α} {log l : List (LogEntry α)}
  {args : AppendEntriesArgs n α}

/-- The two logs have the same entry at index `i`. A sentinel has no command, so where one of the
logs has its sentinel only the terms are compared. -/
def SameAt (log l : List (LogEntry α)) (i : Nat) : Prop :=
  ∃ e ∈ entryAt log i, ∃ e' ∈ entryAt l i, e.term = e'.term ∧
    ((sentinel log).index < i → (sentinel l).index < i → e = e')

/-- `log` equals `l` at the indices up to `k`, from the sentinels on. -/
def EqualUpTo (log l : List (LogEntry α)) (k : Nat) : Prop :=
  ∀ i, i ≤ k → (sentinel log).index ≤ i → (sentinel l).index ≤ i → SameAt log l i

/-- Log matching: an equal term at an index implies equal entries up to it. -/
def EntriesMatch (log l : List (LogEntry α)) : Prop :=
  ∀ i e e', entryAt log i = some e → entryAt l i = some e' → e.term = e'.term → EqualUpTo log l i

/-- The request is a slice of `l`: it names an index of `l` and its term, and carries entries of
`l` from the next index on. -/
structure SliceOf (l : List (LogEntry α)) (args : AppendEntriesArgs n α) : Prop where
  prev : ∃ e, entryAt l args.prevLogIndex = some e ∧ e.term = args.prevLogTerm
  entries : ∀ (k : Nat) (e : LogEntry α), args.entries[k]? = some e →
    entryAt l (args.prevLogIndex + 1 + k) = some e

/-- The definition in a form that can be decided. -/
theorem sliceOf_iff : SliceOf l args ↔
    (∃ e ∈ entryAt l args.prevLogIndex, e.term = args.prevLogTerm) ∧
      ∀ k : Fin args.entries.length,
        entryAt l (args.prevLogIndex + 1 + k) = some args.entries[k] := by
  constructor
  · intro h
    exact ⟨h.prev, fun k => h.entries k _ (List.getElem?_eq_getElem k.2)⟩
  · rintro ⟨hprev, hentries⟩
    refine ⟨hprev, fun k e he => ?_⟩
    obtain ⟨hk, rfl⟩ := List.getElem?_eq_some_iff.1 he
    exact hentries ⟨k, hk⟩

/-- The definition in a form that can be decided. -/
theorem entriesMatch_iff : EntriesMatch log l ↔
    ∀ i : Fin (nextOf log), ∀ e ∈ entryAt log i, ∀ e' ∈ entryAt l i, e.term = e'.term →
      ∀ j : Fin (i + 1), (sentinel log).index ≤ j → (sentinel l).index ≤ j → SameAt log l j := by
  constructor
  · intro h i e he e' he' ht j
    exact h i e e' he he' ht j (Nat.le_of_lt_succ j.2)
  · intro h i e e' he he' ht j hj
    exact h ⟨i, (bounds_of_entryAt he).2⟩ e he e' he' ht ⟨j, Nat.lt_succ_of_le hj⟩

section
variable [DecidableEq α]

instance decidableSameAt (log l : List (LogEntry α)) (i : Nat) : Decidable (SameAt log l i) :=
  inferInstanceAs (Decidable (∃ e ∈ entryAt log i, ∃ e' ∈ entryAt l i, e.term = e'.term ∧
    ((sentinel log).index < i → (sentinel l).index < i → e = e')))

instance decidableEntriesMatch (log l : List (LogEntry α)) : Decidable (EntriesMatch log l) :=
  decidable_of_iff _ entriesMatch_iff.symm

instance decidableSliceOf (l : List (LogEntry α)) (args : AppendEntriesArgs n α) :
    Decidable (SliceOf l args) :=
  decidable_of_iff _ sliceOf_iff.symm

end

/-- The index of the last entry of a request. -/
def AppendEntriesArgs.last (args : AppendEntriesArgs n α) : Nat :=
  args.prevLogIndex + args.entries.length

/-! ## One request -/

/-- Two logs are the same at an index when their entries there are. -/
theorem SameAt.congr {log' : List (LogEntry α)} {i : Nat} (h : SameAt log l i)
    (hs : sentinel log' = sentinel log) (hi : entryAt log' i = entryAt log i) :
    SameAt log' l i := by
  rw [SameAt, hs, hi]
  exact h

/-- Logs that are equal up to an index are equal up to every smaller one. -/
theorem EqualUpTo.mono {k k' : Nat} (h : EqualUpTo log l k) (hle : k' ≤ k) : EqualUpTo log l k' :=
  fun i hi => h i (Nat.le_trans hi hle)

/-- A log that ends within what it shares with `l` matches it. -/
theorem EqualUpTo.entriesMatch {k : Nat} (h : EqualUpTo log l k)
    (hlast : ∀ i e, entryAt log i = some e → i ≤ k) : EntriesMatch log l :=
  fun i e _ he _ _ => h.mono (hlast i e he)

section
variable {k : Nat} (hlog : Contiguous rf.log) (ha : SliceOf l args)
  (hterm : rf.getTerm args.prevLogIndex = some args.prevLogTerm)
  (hskip : Skips rf.log args.entries (args.prevLogIndex + 1) k)
include hlog ha hterm hskip

/-- The log agrees with `l` as far as the request's entries are skipped. -/
theorem EntriesMatch.skipped (hm : EntriesMatch rf.log l) :
    EqualUpTo rf.log l (args.prevLogIndex + k) := by
  cases k with
  | zero =>
    rw [hlog.getTerm, Option.map_eq_some_iff] at hterm
    obtain ⟨e, he, het⟩ := hterm
    obtain ⟨e', he', het'⟩ := ha.prev
    exact hm _ e e' he he' (het.trans het'.symm)
  | succ k =>
    obtain ⟨e, e', he, he', het⟩ := hskip.held k (Nat.lt_succ_self k)
    rw [show args.prevLogIndex + (k + 1) = args.prevLogIndex + 1 + k by omega]
    exact hm _ e e' he (ha.entries k e' he') het

/-- An entry that the loop stops at is not one that the log shares with `l`. -/
theorem EqualUpTo.lt_insert (hlt : k < args.entries.length) {e : Nat} (h : EqualUpTo rf.log l e) :
    e < args.prevLogIndex + 1 + k := by
  by_contra hge
  obtain ⟨y, hy, _⟩ := ha.prev
  have hfirst := (hlog.bounds_of_getTerm hterm).1
  have hfirst' := (bounds_of_entryAt hy).1
  obtain ⟨a, hea, b, heb, hab, _⟩ := h (args.prevLogIndex + 1 + k) (Nat.le_of_not_lt hge)
    (by omega) (by omega)
  have hget := List.getElem?_eq_getElem hlt
  have hb := ha.entries k _ hget
  rw [Option.mem_def] at hea heb
  rw [heb] at hb
  cases hb
  exact hskip.stop a _ hea hget hab

omit ha in
/-- What a log is after the splice, read at an index. -/
theorem entryAt_splice
    (hlog' : log = rf.log.take (args.prevLogIndex + 1 + k - (sentinel rf.log).index) ++
      args.entries.drop k) :
    sentinel log = sentinel rf.log ∧ ∀ i, entryAt log i =
      if i < args.prevLogIndex + 1 + k then entryAt rf.log i
      else args.entries[i - (args.prevLogIndex + 1)]? := by
  have hfirst := (hlog.bounds_of_getTerm hterm).1
  have hsent : sentinel log = sentinel rf.log := by
    obtain ⟨m, hm⟩ : ∃ m, args.prevLogIndex + 1 + k - (sentinel rf.log).index = m + 1 :=
      Nat.exists_eq_succ_of_ne_zero (by omega)
    rw [hlog', hm]
    conv_lhs => rw [hlog.eq_cons]
    rfl
  refine ⟨hsent, fun i => ?_⟩
  rw [entryAt, hsent, hlog', window_splice (by omega) hskip.next_le]
  split
  · rfl
  · rw [List.getElem?_drop]
    congr 1
    omega

end

/-- **What a request does.** The log of a follower that takes a slice of `l` then equals `l` up to
the end of the request and still matches `l`; what it shared with `l` before is not touched. -/
theorem EntriesMatch.splice (hl : Contiguous l) (hlog : Contiguous rf.log)
    (hm : EntriesMatch rf.log l) (ha : SliceOf l args)
    (hterm : rf.getTerm args.prevLogIndex = some args.prevLogTerm) {k : Nat}
    (hskip : Skips rf.log args.entries (args.prevLogIndex + 1) k) (hs : Spliced rf args k rf') :
    Contiguous rf'.log ∧ sentinel rf'.log = sentinel rf.log ∧ EntriesMatch rf'.log l ∧
      EqualUpTo rf'.log l args.last ∧
      ∀ e, EqualUpTo rf.log l e → ∀ i, i ≤ e → entryAt rf'.log i = entryAt rf.log i := by
  have hsk := hm.skipped hlog ha hterm hskip
  have hlog' := hs.log
  rcases Nat.lt_or_eq_of_le hskip.le with hlt | rfl
  swap
  · rw [if_pos rfl] at hlog'
    rw [hlog']
    exact ⟨hlog, rfl, hm, hsk, fun _ _ _ _ => rfl⟩
  rw [if_neg (Nat.ne_of_lt hlt)] at hlog'
  obtain ⟨hsent, hat⟩ := entryAt_splice hlog hterm hskip hlog'
  -- past the splice the log holds entries of `l`
  have hnew : ∀ i e, ¬ i < args.prevLogIndex + 1 + k → entryAt rf'.log i = some e →
      entryAt l i = some e ∧ i ≤ args.last := by
    intro i e hge he
    rw [hat, if_neg hge] at he
    have hlen := (List.getElem?_eq_some_iff.1 he).1
    have := ha.entries _ e he
    rw [show args.prevLogIndex + 1 + (i - (args.prevLogIndex + 1)) = i by omega] at this
    exact ⟨this, by rw [AppendEntriesArgs.last]; omega⟩
  have hequal : EqualUpTo rf'.log l args.last := by
    intro i hi h1 h2
    by_cases hik : i < args.prevLogIndex + 1 + k
    · rw [hsent] at h1
      exact (hsk i (by omega) h1 h2).congr hsent (by rw [hat, if_pos hik])
    · have hlen : i - (args.prevLogIndex + 1) < args.entries.length := by
        rw [AppendEntriesArgs.last] at hi
        omega
      have he : entryAt rf'.log i = some args.entries[i - (args.prevLogIndex + 1)] := by
        rw [hat, if_neg hik]
        exact List.getElem?_eq_getElem hlen
      exact ⟨_, he, _, (hnew i _ hik he).1, rfl, fun _ _ => rfl⟩
  have hlast : ∀ i e, entryAt rf'.log i = some e → i ≤ args.last := by
    intro i e he
    by_cases hik : i < args.prevLogIndex + 1 + k
    · rw [AppendEntriesArgs.last]
      omega
    · exact (hnew i e hik he).2
  refine ⟨⟨?_, fun j e he => ?_⟩, hsent, hequal.entriesMatch hlast, hequal, fun e h i hi => ?_⟩
  · rw [hlog']
    intro hnil
    rw [List.append_eq_nil_iff, List.drop_eq_nil_iff] at hnil
    omega
  · have he' : entryAt rf'.log ((sentinel rf'.log).index + j) = some e := by
      rw [entryAt, window_add, he]
    by_cases hik : (sentinel rf'.log).index + j < args.prevLogIndex + 1 + k
    · rw [hat, if_pos hik] at he'
      exact hlog.index_of_entryAt he'
    · exact hl.index_of_entryAt (hnew _ e hik he').1
  · have hlt' := h.lt_insert hlog ha hterm hskip hlt
    rw [hat, if_pos (by omega)]

/-! ## Runs -/

/-- `AppendEntries` as a step of the follower; the number is the spare capacity of a fresh
array. -/
def Raft.receive (rf : Raft n α) (request : AppendEntriesArgs n α × Nat) : Option (Raft n α) :=
  (rf.appendEntries request.1 request.2).map Prod.fst

/-- The requests of the leader of term `t` whose log is `l`. -/
def FromLeader (t : Nat) (l : List (LogEntry α)) (_ : Raft n α)
    (request : AppendEntriesArgs n α × Nat) : Prop :=
  request.1.term = t ∧ SliceOf l request.1

/-- A follower in term `t` whose log matches `l`. -/
structure FollowsLog (t : Nat) (l : List (LogEntry α)) (rf : Raft n α) : Prop where
  alive : rf.state ≠ .dead
  currentTerm : rf.currentTerm = t
  contiguous : Contiguous rf.log
  entriesMatch : EntriesMatch rf.log l

/-- What the server shares with `l` stays as it is. -/
structure KeepsShared (l : List (LogEntry α)) (rf rf' : Raft n α) : Prop where
  sentinel_eq : sentinel rf'.log = sentinel rf.log
  keeps : ∀ e, EqualUpTo rf.log l e → ∀ i, i ≤ e → entryAt rf'.log i = entryAt rf.log i

/-- What is equal to the leader's log stays equal to it. -/
theorem KeepsShared.equalUpTo (h : KeepsShared l rf rf') {e : Nat} (he : EqualUpTo rf.log l e) :
    EqualUpTo rf'.log l e := by
  intro i hi h1 h2
  rw [h.sentinel_eq] at h1
  exact (he i hi h1 h2).congr h.sentinel_eq (h.keeps e he i hi)

theorem KeepsShared.trans {rf'' : Raft n α} (h : KeepsShared l rf rf')
    (h' : KeepsShared l rf' rf'') :
    KeepsShared l rf rf'' where
  sentinel_eq := h'.sentinel_eq.trans h.sentinel_eq
  keeps := fun e he i hi => (h'.keeps e (h.equalUpTo he) i hi).trans (h.keeps e he i hi)

/-- One request of the leader. -/
theorem FollowsLog.appendEntries {t : Nat} (hl : Contiguous l) (h : FollowsLog t l rf)
    (ht : args.term = t) (ha : SliceOf l args) (g : Nat) :
    ∃ rf' reply, rf.appendEntries args g = some (rf', reply) ∧ FollowsLog t l rf' ∧
      KeepsShared l rf rf' ∧ (reply.success = true → EqualUpTo rf'.log l args.last) := by
  obtain ⟨rf', reply, hr, hcase⟩ := h.contiguous.exists_appendEntries args g
  refine ⟨rf', reply, hr, ?_⟩
  rcases hcase with ⟨hdead | hlt, _⟩ | ⟨_, _, hct, hrec⟩
  · exact absurd hdead h.alive
  · rw [h.currentTerm, ht] at hlt
    exact absurd hlt (Nat.lt_irrefl _)
  have hlog : (rf.stepDown args.term).toFollower.log = rf.log := stepDown_log ..
  subst ht
  -- a request that is not taken leaves the log
  have hsame : FollowsLog args.term l (rf.stepDown args.term).toFollower ∧
      KeepsShared l rf (rf.stepDown args.term).toFollower := by
    refine ⟨⟨nofun, hct, ?_, ?_⟩, ⟨by rw [hlog], fun _ _ _ _ => by rw [hlog]⟩⟩
    · rw [hlog]
      exact h.contiguous
    · rw [hlog]
      exact h.entriesMatch
  cases hrec with
  | below | short | conflict => exact ⟨hsame.1, hsame.2, nofun⟩
  | stored hterm hskip hs =>
    obtain ⟨h1, h2, h3, h4, h5⟩ :=
      hsame.1.entriesMatch.splice hl hsame.1.contiguous ha hterm hskip hs
    refine ⟨⟨?_, hs.currentTerm.trans hct, h1, h3⟩, hsame.2.trans ⟨h2, h5⟩, fun _ => h4⟩
    rw [hs.state]
    nofun

/-- Any number of requests of the leader. -/
theorem FollowsLog.run {t : Nat} (hl : Contiguous l) (h : FollowsLog t l rf)
    (hrun : Reach Raft.receive (FromLeader t l) rf rf') :
    FollowsLog t l rf' ∧ KeepsShared l rf rf' := by
  refine hrun.invariant (P := fun rf' => FollowsLog t l rf' ∧ KeepsShared l rf rf')
    ⟨h, rfl, fun _ _ _ _ => rfl⟩ ?_
  intro rf₁ rf₂ request ⟨h₁, hk₁⟩ ⟨ht, ha⟩ hstep
  obtain ⟨rf', reply, hr, h₂, hk₂, _⟩ := h₁.appendEntries hl ht ha request.2
  rw [Raft.receive, hr] at hstep
  cases hstep
  exact ⟨h₂, hk₁.trans hk₂⟩

/-- **Reordering and repetition.** A follower processes any sequence of requests that are slices of
`l`. Its log matches `l` throughout, and no request panics. Once a request was answered with
success, the log equals `l` up to the end of that request, and whatever follows, these entries
stay. -/
theorem appendEntries_any_order {t : Nat} (hl : Contiguous l) (h : FollowsLog t l rf)
    {rf₁ : Raft n α} (hrun : Reach Raft.receive (FromLeader t l) rf rf₁) :
    EntriesMatch rf₁.log l ∧
    ∀ args g, args.term = t → SliceOf l args →
      ∃ rf₂ reply, rf₁.appendEntries args g = some (rf₂, reply) ∧
        (reply.success = true → ∀ rf₃, Reach Raft.receive (FromLeader t l) rf₂ rf₃ →
          sentinel rf₃.log = sentinel rf.log ∧ EqualUpTo rf₃.log l args.last ∧
          ∀ i, i ≤ args.last → entryAt rf₃.log i = entryAt rf₂.log i) := by
  obtain ⟨h₁, hk₁⟩ := h.run hl hrun
  refine ⟨h₁.entriesMatch, fun args g ht ha => ?_⟩
  obtain ⟨rf₂, reply, hr, h₂, hk₂, hsucc⟩ := h₁.appendEntries hl ht ha g
  refine ⟨rf₂, reply, hr, fun hs rf₃ hrun' => ?_⟩
  obtain ⟨_, hk₃⟩ := h₂.run hl hrun'
  exact ⟨((hk₁.trans hk₂).trans hk₃).sentinel_eq, hk₃.equalUpTo (hsucc hs), hk₃.keeps _ (hsucc hs)⟩

/-- The log of a leader of term 2, and a follower with an entry of term 1 that is not in it. -/
def reorderLog : List (LogEntry Nat) :=
  [.zero, ⟨some 1, 1, 1⟩, ⟨some 2, 2, 2⟩, ⟨some 3, 2, 3⟩]

/-- A follower with an entry that is in conflict with the leader's log. -/
def reorderFollower : Raft 2 Nat where
  persister := .empty
  currentTerm := 2
  voteFor := none
  log := [.zero, ⟨some 1, 1, 1⟩, ⟨some 9, 1, 2⟩]
  spare := []
  state := .follower
  commitIndex := 0
  lastApplied := 0
  nextIndex := fun _ => 0
  matchIndex := fun _ => 0

/-- A heartbeat after index 0, then a request with the entries 2 and 3, which takes effect: the
entries up to index 3 stay whatever follows. -/
theorem reorderFollower_keeps :
    ∃ rf₁ rf₂ reply, reorderFollower.receive (⟨2, 0, 0, 0, [], 0⟩, 0) = some rf₁ ∧
      rf₁.appendEntries ⟨2, 0, 1, 1, [⟨some 2, 2, 2⟩, ⟨some 3, 2, 3⟩], 0⟩ 0 = some (rf₂, reply) ∧
      reply.success = true ∧
      ∀ rf₃, Reach Raft.receive (FromLeader 2 reorderLog) rf₂ rf₃ →
        EqualUpTo rf₃.log reorderLog 3 := by
  have hfollows : FollowsLog 2 reorderLog reorderFollower :=
    ⟨by decide, rfl, by decide, by decide⟩
  obtain ⟨rf₁, hr₁⟩ : ∃ rf₁, reorderFollower.receive (⟨2, 0, 0, 0, [], 0⟩, 0) = some rf₁ :=
    ⟨_, rfl⟩
  have hrun : Reach Raft.receive (FromLeader 2 reorderLog) reorderFollower rf₁ :=
    .step .init ⟨rfl, by decide⟩ hr₁
  obtain ⟨rf₂, reply, hr, hkeep⟩ := (appendEntries_any_order (by decide) hfollows hrun).2
    ⟨2, 0, 1, 1, [⟨some 2, 2, 2⟩, ⟨some 3, 2, 3⟩], 0⟩ 0 rfl (by decide)
  have hsucc : reply.success = true := by
    cases hr₁
    cases hr
    rfl
  exact ⟨rf₁, rf₂, reply, hr₁, hr, hsucc, fun rf₃ hrun' => (hkeep hsucc rf₃ hrun').2.1⟩

end DistLabs
