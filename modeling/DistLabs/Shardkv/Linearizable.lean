import DistLabs.Lib.Linearizable
import DistLabs.Shardkv.Store

/-!
# The sharded store is linearizable

`Traced` records what the clerks see, and in which order the groups commit their commands. A write
takes effect when the command is committed that executes it, and a read when the command is
committed that answers it; at that time the group serves the shard, so it has all writes to it
(`Held`). A write is executed once, because the group that serves a shard knows all writes to it
(`Ordered.once`).

The theorem `shardkv_linearizable` is about all runs: any operations on the controller, groups at
different configs, any interleaving of requests, migration and answers, requests that are repeated
or arrive late. What it asks for is that no shard is left to group 0 (`KeepsOwners`).
-/

namespace DistLabs.Shardkv

open Lib Shardctrler

/-! ## What the clerks see -/

/-- A request is known by its clerk and its number. -/
def GetPutAppendArgs.id (args : GetPutAppendArgs) : Int × Int := (args.clientId, args.requestId)

/-- What a client gets: the value of a key, or nothing. -/
def Store.step (store : Store) (op : GetPutAppendArgs) : Store × GoString :=
  (store.write op, if op.opType = .get then store op.key else [])

/-- The clerks and the system, with a record of what has happened: the calls and returns, each with
the number of commands that all groups had committed, these commands in order, by group and place
in its log, and those of them that answered a `Get`. -/
structure Traced where
  sv : Service := .init
  history : List (HistoryEvent (Int × Int) GetPutAppendArgs GoString × Nat) := []
  commits : List (Gid × Nat) := []
  reads : List (Gid × Nat) := []

/-- The command that a step commits. -/
def System.newCommits (sys : System) : Action → List (Gid × Nat)
  | .commit g _ => [(g, (sys.groups g).log.length)]
  | _ => []

namespace Traced

variable (t : Traced)

/-- A clerk sees something. -/
def see (e : HistoryEvent (Int × Int) GetPutAppendArgs GoString) :
    List (HistoryEvent (Int × Int) GetPutAppendArgs GoString × Nat) :=
  t.history ++ [(e, t.commits.length)]

/-- The steps of the service, with the order of commits and the history of the clerks. -/
def step (e : Service.Event) : Option Traced := do
  let sv ← t.sv.step e
  match e with
  | .call clientId key value opType =>
    let args : GetPutAppendArgs := ⟨key, value, opType, (t.sv.clerks clientId).requestId, clientId⟩
    return { t with sv, history := t.see (.call args.id args) }
  | .act a => return { t with sv, commits := t.commits ++ t.sv.sys.newCommits a }
  | .duplicate clientId _ _ =>
    let args ← (t.sv.clerks clientId).pending
    return { t with sv, history := t.see (.ret args.id []) }
  | .reply clientId g j =>
    let args ← (t.sv.clerks clientId).pending
    let reply := ((t.sv.sys.server g j).execute (.getPutAppend args)).2
    return { t with
      sv
      history := t.see (.ret args.id reply.value)
      reads := if args.opType = .get then t.reads ++ [(g, j)] else t.reads }

/-- There are no servers of group 0. -/
def NoGroupZero (_ : Traced) : Service.Event → Prop
  | .act (.client g _ _) => g ≠ 0
  | _ => True

instance decidableNoGroupZero (t : Traced) : DecidablePred t.NoGroupZero
  | .act (.client g _ _) => inferInstanceAs (Decidable (g ≠ 0))
  | .act (.ctrler ..) | .act (.requestConfig ..) | .act (.insert ..) | .act (.delete ..)
  | .act (.adjust ..) | .act (.commit ..) | .call .. | .duplicate .. | .reply .. => isTrue trivial

end Traced

/-- A step, with what it needs. -/
inductive Traced.Stepped (t : Traced) : Service.Event → Traced → Prop where
  | call {c : Int} {key value : GoString} {opType : OpType} {args : GetPutAppendArgs}
      (hargs : args = ⟨key, value, opType, (t.sv.clerks c).requestId, c⟩)
      (hnone : (t.sv.clerks c).pending = none) :
      Stepped t (.call c key value opType)
        { t with sv := t.sv.called args, history := t.see (.call args.id args) }
  | act {a : Action} {sys' : System} (hsends : t.sv.Sends a) (hst : t.sv.sys.step a = some sys') :
      Stepped t (.act a)
        { t with sv := { t.sv with sys := sys' }, commits := t.commits ++ t.sv.sys.newCommits a }
  | duplicate {c : Int} {g : Gid} {k : Nat} {args : GetPutAppendArgs}
      (hpend : (t.sv.clerks c).pending = some args)
      (hdup : (t.sv.sys.server g k).AnswersDuplicate args) :
      Stepped t (.duplicate c g k)
        { t with sv := t.sv.answered c, history := t.see (.ret args.id []) }
  | reply {c : Int} {g : Gid} {j : Nat} {args : GetPutAppendArgs}
      (hpend : (t.sv.clerks c).pending = some args) (hrep : t.sv.Replied args g j) :
      Stepped t (.reply c g j) { t with
        sv := t.sv.answered c
        history := t.see
          (.ret args.id ((t.sv.sys.server g j).execute (.getPutAppend args)).2.value)
        reads := if args.opType = .get then t.reads ++ [(g, j)] else t.reads }

/-- A step is one of those that `Stepped` lists. -/
theorem Traced.stepped {t t' : Traced} {e : Service.Event} (h : t.step e = some t') :
    t.Stepped e t' := by
  cases e with
  | call c key value opType =>
    obtain ⟨sv, hsv, heq⟩ := Option.bind_eq_some_iff.1 h
    cases heq
    simp only [Service.step, Option.ite_none_right_eq_some] at hsv
    obtain ⟨hnone, hsv⟩ := hsv
    cases hsv
    exact .call rfl hnone
  | act a =>
    obtain ⟨sv, hsv, heq⟩ := Option.bind_eq_some_iff.1 h
    cases heq
    simp only [Service.step, Option.ite_none_right_eq_some] at hsv
    obtain ⟨hsends, hsv⟩ := hsv
    obtain ⟨sys', hsys', rfl⟩ := Option.map_eq_some_iff.1 hsv
    exact .act hsends hsys'
  | duplicate c g k =>
    obtain ⟨sv, hsv, h⟩ := Option.bind_eq_some_iff.1 h
    obtain ⟨args, hpend, heq⟩ := Option.bind_eq_some_iff.1 h
    cases heq
    simp only [Service.step, hpend, Option.bind_eq_bind, Option.bind_some,
      Option.ite_none_right_eq_some] at hsv
    obtain ⟨hdup, hsv⟩ := hsv
    cases hsv
    exact .duplicate hpend hdup
  | reply c g j =>
    obtain ⟨sv, hsv, h⟩ := Option.bind_eq_some_iff.1 h
    obtain ⟨args, hpend, heq⟩ := Option.bind_eq_some_iff.1 h
    cases heq
    simp only [Service.step, hpend, Option.bind_eq_bind, Option.bind_some,
      Option.ite_none_right_eq_some] at hsv
    obtain ⟨hrep, hsv⟩ := hsv
    cases hsv
    exact .reply hpend hrep

/-- The clerks do not notice that they are observed. -/
theorem Traced.step_service {t t' : Traced} {e : Service.Event} (h : t.step e = some t') :
    t.sv.step e = some t'.sv := by
  obtain ⟨sv, hsv, h⟩ := Option.bind_eq_some_iff.1 h
  have heq : t'.sv = sv := by
    cases e with
    | call | act =>
      cases h
      rfl
    | duplicate c | reply c =>
      obtain ⟨args, -, heq⟩ := Option.bind_eq_some_iff.1 h
      cases heq
      rfl
  rw [heq]
  exact hsv

/-! ## The order of commits -/

/-- The write that takes effect as a committed command. -/
def System.effectAt (sys : System) (x : Gid × Nat) : Option GetPutAppendArgs :=
  (sys.groups x.1).log[x.2]?.bind (sys.server x.1 x.2).effect

/-- The store before commit number `p`. -/
def System.storeAt (sys : System) (commits : List (Gid × Nat)) (p : Nat) : Store :=
  storeOf ((commits.take p).filterMap sys.effectAt)

/-- What holds of the order in which commands are committed. -/
structure Ordered (sys : System) (commits : List (Gid × Nat)) : Prop where
  positions : ∀ x, x ∈ commits ↔ x.2 < (sys.groups x.1).log.length
  nodup : commits.Nodup
  held : Held sys (commits.filterMap sys.effectAt)
  /-- A group that serves a shard reads what was written last. -/
  served : ∀ (p : Nat) x op, commits[p]? = some x →
    (sys.groups x.1).log[x.2]? = some (.getPutAppend op) →
    (sys.server x.1 x.2).checkShardAndState (key2shard op.key) →
    ((sys.server x.1 x.2).shards (key2shard op.key)).get op.key = sys.storeAt commits p op.key
  /-- A write takes effect once. -/
  once : ∀ (p q : Nat) x y op, commits[p]? = some x → commits[q]? = some y →
    sys.effectAt x = some op →
    sys.effectAt y = some op → p = q

section
variable {sys sys' : System} {commits commits' : List (Gid × Nat)} {p : Nat} {x : Gid × Nat}

/-- The effect of a command that is in the log does not change. -/
theorem Grows.effectAt (h : Grows sys sys') (hx : x.2 < (sys.groups x.1).log.length) :
    sys'.effectAt x = sys.effectAt x := by
  rw [System.effectAt, System.effectAt, h.server hx.le,
    h.log_getElem? (List.getElem?_eq_getElem hx), List.getElem?_eq_getElem hx]

/-- The effects of commands that are in the log do not change. -/
theorem Grows.filterMap_effectAt (h : Grows sys sys') {l : List (Gid × Nat)}
    (hl : ∀ x ∈ l, x.2 < (sys.groups x.1).log.length) :
    l.filterMap sys'.effectAt = l.filterMap sys.effectAt :=
  List.filterMap_congr fun x hx => h.effectAt (hl x hx)

/-- The stores so far do not change when commands are committed. -/
theorem Grows.storeAt (h : Grows sys sys')
    (hpos : ∀ x ∈ commits, x.2 < (sys.groups x.1).log.length)
    (hp : p ≤ commits.length) (new : List (Gid × Nat)) :
    sys'.storeAt (commits ++ new) p = sys.storeAt commits p := by
  rw [System.storeAt, System.storeAt, List.take_append_of_le_length hp,
    h.filterMap_effectAt fun x hx => hpos x (List.mem_of_mem_take hx)]

theorem storeAt_succ (hx : commits[p]? = some x) : sys.storeAt commits (p + 1) =
    match sys.effectAt x with
    | some op => (sys.storeAt commits p).write op
    | none => sys.storeAt commits p := by
  rw [System.storeAt, List.take_add_one, hx, List.filterMap_append]
  cases heffect : sys.effectAt x with
  | none =>
    simp only [Option.toList_some, List.filterMap_cons_none heffect, List.filterMap_nil,
      List.append_nil]
    rfl
  | some op =>
    simp only [Option.toList_some, List.filterMap_cons_some heffect, List.filterMap_nil]
    exact storeOf_concat _ op

/-- What has an effect is a request that writes. -/
theorem effectAt_eq_some {op : GetPutAppendArgs} (h : sys.effectAt x = some op) :
    (sys.groups x.1).log[x.2]? = some (.getPutAppend op) ∧ op.opType ≠ .get := by
  obtain ⟨command, hlog, heffect⟩ := Option.bind_eq_some_iff.1 h
  obtain ⟨rfl, hwrite, -⟩ := effect_eq_some heffect
  exact ⟨hlog, hwrite⟩

/-- A write that is executed has an effect. -/
theorem effectAt_of_executes {g : Gid} {q : Nat} {op : GetPutAppendArgs}
    (h : sys.Executes g q op) :
    sys.effectAt (g, q) = some op := by
  rw [System.effectAt, h.log, Option.bind_some]
  exact if_pos ⟨h.write, h.serves, h.fresh⟩

namespace Ordered

theorem init : Ordered .init [] where
  positions x := by simp [System.init]
  nodup := List.nodup_nil
  held := held_init
  served p x op h := by cases h
  once p q x y op h := by cases h

/-- Nothing is committed. -/
theorem of_log_eq (h : Ordered sys commits)
    (hlog : ∀ g, (sys'.groups g).log = (sys.groups g).log) :
    Ordered sys' commits := by
  have hserver : ∀ g k, sys'.server g k = sys.server g k := by
    intro g k
    rw [System.server, hlog, System.server]
  have heffect : sys'.effectAt = sys.effectAt := by
    funext x
    rw [System.effectAt, System.effectAt, hlog, hserver]
  refine ⟨fun x => ?_, h.nodup, ?_, fun p x op hx hop hserves => ?_, fun p q x y op hx hy => ?_⟩
  · rw [hlog]
    exact h.positions x
  · rw [heffect]
    exact h.held.of_log_eq hlog
  · rw [hlog] at hop
    rw [hserver] at hserves ⊢
    rw [System.storeAt, heffect]
    exact h.served p x op hx hop hserves
  · rw [heffect]
    exact h.once p q x y op hx hy

/-- A command is committed. -/
theorem commit {g : Gid} {j : Nat} {command : Command} (h : Ordered sys commits) (ho : Origin sys)
    (hcust : Custody sys) (hkeep : KeepsOwners sys) (hclean : Clean sys)
    (hzero : g = 0 → ∀ op, command ≠ .getPutAppend op)
    (hst : sys.step (.commit g j) = some sys') (hc : (sys.groups g).started[j]? = some command) :
    Ordered sys' (commits ++ [(g, (sys.groups g).log.length)]) := by
  have hgrow := grows_step hst
  have hlog := step_commit_log hst hc
  have hpos : ∀ x ∈ commits, x.2 < (sys.groups x.1).log.length := fun x hx => (h.positions x).1 hx
  have hserver : sys'.server g (sys.groups g).log.length = sys.state g := hgrow.server le_rfl
  have heffect : sys'.effectAt (g, (sys.groups g).log.length) = (sys.state g).effect command := by
    rw [System.effectAt, hlog, Option.bind_some, hserver]
  have hsys : sys' = sys.committed g j command := by
    simp only [System.step, hc, Option.bind_eq_bind, Option.bind_some] at hst
    exact (Option.some.inj hst).symm
  -- a commit is one from before or the new one
  have hcases : ∀ (p : Nat) x, (commits ++ [(g, (sys.groups g).log.length)])[p]? = some x →
      commits[p]? = some x ∧ x.2 < (sys.groups x.1).log.length ∨
        p = commits.length ∧ x = (g, (sys.groups g).log.length) := by
    intro p x hx
    rcases of_getElem?_concat hx with hold | hnew
    · exact .inl ⟨hold, hpos x (List.mem_of_getElem? hold)⟩
    · exact .inr hnew
  -- a write that takes effect now has not done so before
  have hfresh : ∀ x ∈ commits, ∀ op, sys.effectAt x = some op →
      (sys.state g).effect command ≠ some op := by
    intro x hx op hop hnew
    obtain ⟨rfl, -, hserves, hfresh⟩ := effect_eq_some hnew
    have hg : g ≠ 0 := fun hg => hzero hg op rfl
    exact hfresh ((h.held.serves g hg _ hserves).known op (List.mem_filterMap.2 ⟨x, hx, hop⟩) rfl)
  refine ⟨fun x => ?_, ?_, ?_, fun p x op hx hop hserves => ?_,
    fun p q x y op hx hy hop hop' => ?_⟩
  · rw [List.mem_append, List.mem_singleton, h.positions, hsys]
    by_cases hg : x.1 = g
    · obtain ⟨g', q⟩ := x
      obtain rfl : g' = g := hg
      rw [System.committed_groups_self, List.length_append, List.length_singleton, Prod.mk.injEq]
      constructor
      · rintro (hlt | ⟨-, rfl⟩)
        · exact Nat.lt_succ_of_lt hlt
        · exact Nat.lt_succ_self _
      · intro hlt
        rcases Nat.lt_succ_iff_lt_or_eq.1 hlt with hlt | heq
        · exact .inl hlt
        · exact .inr ⟨rfl, heq⟩
    · rw [System.committed_groups_of_ne hg]
      constructor
      · rintro (hlt | rfl)
        · exact hlt
        · exact absurd rfl hg
      · exact .inl
  · refine List.nodup_append.2 ⟨h.nodup, List.nodup_singleton _, fun x hx y hy heq => ?_⟩
    rw [heq, List.mem_singleton.1 hy] at hx
    exact lt_irrefl _ (hpos _ hx)
  · rw [List.filterMap_append, hgrow.filterMap_effectAt hpos]
    have hnew : [(g, (sys.groups g).log.length)].filterMap sys'.effectAt =
        ((sys.state g).effect command).toList := by
      rw [← heffect]
      cases hop : sys'.effectAt (g, (sys.groups g).log.length) with
      | none => rw [List.filterMap_cons_none hop, List.filterMap_nil, Option.toList_none]
      | some op => rw [List.filterMap_cons_some hop, List.filterMap_nil, Option.toList_some]
    rw [hnew]
    exact h.held.commit hcust ho hkeep hclean hzero hst hc
  · rcases hcases p x hx with ⟨hold, hlt⟩ | ⟨rfl, rfl⟩
    · rw [hgrow.server hlt.le] at hserves ⊢
      rw [hgrow.log_getElem? (List.getElem?_eq_getElem hlt), ← List.getElem?_eq_getElem hlt] at hop
      rw [hgrow.storeAt hpos (List.getElem?_eq_some_iff.1 hold).1.le]
      exact h.served p x op hold hop hserves
    · rw [hlog] at hop
      cases hop
      rw [hserver] at hserves ⊢
      rw [hgrow.storeAt hpos le_rfl, System.storeAt, List.take_length]
      exact (h.held.serves g (fun hg => hzero hg op rfl) _ hserves).data op.key rfl
  · rcases hcases p x hx with ⟨hold, hlt⟩ | ⟨rfl, rfl⟩ <;> rcases hcases q y hy with
      ⟨hold', hlt'⟩ | ⟨rfl, rfl⟩
    · rw [hgrow.effectAt hlt] at hop
      rw [hgrow.effectAt hlt'] at hop'
      exact h.once p q x y op hold hold' hop hop'
    · rw [hgrow.effectAt hlt] at hop
      rw [heffect] at hop'
      exact absurd hop' (hfresh x (List.mem_of_getElem? hold) op hop)
    · rw [hgrow.effectAt hlt'] at hop'
      rw [heffect] at hop
      exact absurd hop (hfresh y (List.mem_of_getElem? hold') op hop')
    · rfl

end Ordered

end

section
variable {sys sys' : System} {commits : List (Gid × Nat)} {a : Action}

/-- Only commits make logs grow. -/
theorem log_eq_of_step (hst : sys.step a = some sys') (ha : ∀ g j, a ≠ .commit g j) (g : Gid) :
    (sys'.groups g).log = (sys.groups g).log := by
  rcases System.step_cases hst with
    ⟨o, op, p, -, -, rfl⟩ | ⟨g', command, -, -, rfl⟩ | ⟨g', j, command, rfl, -, -⟩
  · rfl
  · exact System.start_log g
  · exact absurd rfl (ha g' j)

/-- Only commits commit. -/
theorem newCommits_eq_nil (sys : System) (ha : ∀ g j, a ≠ .commit g j) :
    sys.newCommits a = [] := by
  cases a with
  | commit g j => exact absurd rfl (ha g j)
  | ctrler | client | requestConfig | insert | delete | adjust => rfl

/-- A step of the system. -/
theorem Ordered.step (h : Ordered sys commits) (ho : Origin sys) (hcust : Custody sys)
    (hkeep : KeepsOwners sys)
    (hclean : Clean sys) (hzero : ∀ op, .getPutAppend op ∉ (sys.groups 0).started)
    (hst : sys.step a = some sys') : Ordered sys' (commits ++ sys.newCommits a) := by
  by_cases ha : ∃ g j, a = .commit g j
  · obtain ⟨g, j, rfl⟩ := ha
    obtain ⟨command, hc, -⟩ := Option.bind_eq_some_iff.1 hst
    refine h.commit ho hcust hkeep hclean ?_ hst hc
    rintro rfl op rfl
    exact hzero op (List.mem_of_getElem? hc)
  · have ha' : ∀ g j, a ≠ .commit g j := fun g j heq => ha ⟨g, j, heq⟩
    rw [newCommits_eq_nil sys ha', List.append_nil]
    exact h.of_log_eq (log_eq_of_step hst ha')

end

/-! ## Observed runs -/

/-- The request takes effect, or is answered, by commit number `p`. -/
def Traced.Takes (t : Traced) (p : Nat) (op : GetPutAppendArgs) : Prop :=
  ∃ x, t.commits[p]? = some x ∧ (t.sv.sys.groups x.1).log[x.2]? = some (.getPutAppend op) ∧
    (t.sv.sys.effectAt x = some op ∨ x ∈ t.reads)

/-- What holds of an observed run. -/
structure Traced.Inv (t : Traced) : Prop where
  ordered : Ordered t.sv.sys t.commits
  /-- Group 0 gets no requests. -/
  zero : ∀ op, .getPutAppend op ∉ (t.sv.sys.groups 0).log ∧
    .getPutAppend op ∉ (t.sv.sys.groups 0).started
  times : t.history.Pairwise (·.2 ≤ ·.2)
  bounded : ∀ e ∈ t.history, e.2 ≤ t.commits.length
  /-- Commands are committed after the call. -/
  call : ∀ id op n, (.call id op, n) ∈ t.history → id = op.id ∧ op ∈ t.sv.issued ∧
    ∀ p < n, ∀ x op', t.commits[p]? = some x →
      (t.sv.sys.groups x.1).log[x.2]? = some (.getPutAppend op') → op'.id ≠ id
  issued : ∀ op ∈ t.sv.issued, ∃ n, (.call op.id op, n) ∈ t.history
  read : ∀ x ∈ t.reads, ∃ op, (t.sv.sys.groups x.1).log[x.2]? = some (.getPutAppend op) ∧
    op.opType = .get ∧
    op.requestId < (t.sv.clerks op.clientId).requestId
  readOnce : ∀ x ∈ t.reads, ∀ y ∈ t.reads, ∀ op op',
    (t.sv.sys.groups x.1).log[x.2]? = some (.getPutAppend op) →
    (t.sv.sys.groups y.1).log[y.2]? = some (.getPutAppend op') → op.id = op'.id → x = y
  ret : ∀ id res n, (.ret id res, n) ∈ t.history → ∃ p < n, ∃ op, t.Takes p op ∧ op.id = id ∧
    res = (Store.step (t.sv.sys.storeAt t.commits p) op).2

namespace Traced

variable {t t' : Traced}

theorem inv_init : Traced.Inv {} where
  ordered := .init
  zero _ := ⟨List.not_mem_nil, List.not_mem_nil⟩
  times := .nil
  bounded _ h := by cases h
  call _ _ _ h := by cases h
  issued _ h := by cases h
  read _ h := by cases h
  readOnce _ h := by cases h
  ret _ _ _ h := by cases h

/-- A clerk sends its next request. -/
theorem Inv.called (h : t.Inv) (hsv : t.sv.Inv) {args : GetPutAppendArgs}
    (hnone : (t.sv.clerks args.clientId).pending = none)
    (hnum : args.requestId = (t.sv.clerks args.clientId).requestId) :
    Inv { t with sv := t.sv.called args, history := t.see (.call args.id args) } where
  ordered := h.ordered
  zero := h.zero
  times := times_record h.times h.bounded _
  bounded := time_le_record h.bounded _
  call id op n hmem := by
    rcases List.mem_append.1 hmem with hold | hnew
    · obtain ⟨hid, hop, hafter⟩ := h.call id op n hold
      exact ⟨hid, List.mem_append_left _ hop, hafter⟩
    · cases List.mem_singleton.1 hnew
      refine ⟨rfl, List.mem_append_right _ (List.mem_singleton_self _),
        fun p _ x op' _ hop' heq => ?_⟩
      -- commands in the logs have smaller numbers
      obtain ⟨hc, hr⟩ := Prod.mk.inj heq
      rcases (hsv.issued op' (hsv.command x.1 op' (.inl (List.mem_of_getElem? hop')))).2 with
        hlt | hpend
      · rw [hc, ← hnum, hr] at hlt
        exact lt_irrefl _ hlt
      · rw [hc, hnone] at hpend
        cases hpend
  issued op hop := by
    rcases List.mem_append.1 hop with hold | hnew
    · obtain ⟨n, hn⟩ := h.issued op hold
      exact ⟨n, List.mem_append_left _ hn⟩
    · rw [List.mem_singleton.1 hnew]
      exact ⟨_, List.mem_append_right _ (List.mem_singleton_self _)⟩
  read x hx := by
    obtain ⟨op, hop, hget, hlt⟩ := h.read x hx
    refine ⟨op, hop, hget, ?_⟩
    change op.requestId < (Function.update t.sv.clerks args.clientId ⟨args.requestId, some args⟩
      op.clientId).requestId
    rw [Function.update_apply]
    split
    · next hc =>
      rw [hc, ← hnum] at hlt
      exact hlt
    · exact hlt
  readOnce := h.readOnce
  ret id res n hmem := by
    rcases List.mem_append.1 hmem with hold | hnew
    · exact h.ret id res n hold
    · cases List.mem_singleton.1 hnew

/-- A clerk gets the answer to a request that takes effect by commit number `p`. -/
theorem Inv.answered (h : t.Inv) {args : GetPutAppendArgs} {res : GoString}
    {reads : List (Gid × Nat)} {p : Nat} (hsub : ∀ x ∈ t.reads, x ∈ reads)
    (hnew : ∀ x ∈ reads, x ∉ t.reads → args.opType = .get ∧
      (t.sv.sys.groups x.1).log[x.2]? = some (.getPutAppend args))
    (honce : ∀ x ∈ reads, x ∉ t.reads → ∀ y ∈ reads, y ∉ t.reads → x = y)
    (hnum : args.requestId = (t.sv.clerks args.clientId).requestId)
    (hp : p < t.commits.length)
    (htakes : Takes { t with
      sv := t.sv.answered args.clientId
      history := t.see (.ret args.id res)
      reads } p args)
    (hres : res = (Store.step (t.sv.sys.storeAt t.commits p) args).2) :
    Inv { t with
      sv := t.sv.answered args.clientId
      history := t.see (.ret args.id res)
      reads } where
  ordered := h.ordered
  zero := h.zero
  times := times_record h.times h.bounded _
  bounded := time_le_record h.bounded _
  call id op n hmem := by
    rcases List.mem_append.1 hmem with hold | hnew
    · exact h.call id op n hold
    · cases List.mem_singleton.1 hnew
  issued op hop := by
    obtain ⟨n, hn⟩ := h.issued op hop
    exact ⟨n, List.mem_append_left _ hn⟩
  read x hx := by
    have hle : ∀ c,
        (t.sv.clerks c).requestId ≤ ((t.sv.answered args.clientId).clerks c).requestId := by
      intro c
      simp only [Service.answered, Function.update_apply]
      split
      · next hc =>
        rw [hc]
        exact (Int.lt_succ _).le
      · exact le_rfl
    by_cases hold : x ∈ t.reads
    · obtain ⟨op, hop, hget, hlt⟩ := h.read x hold
      exact ⟨op, hop, hget, hlt.trans_le (hle _)⟩
    · obtain ⟨hget, hop⟩ := hnew x hx hold
      refine ⟨args, hop, hget, ?_⟩
      simp only [Service.answered, Function.update_self, hnum]
      exact Int.lt_succ _
  readOnce x hx y hy op op' hop hop' hid := by
    -- an answer from before has a smaller number
    have hdiff : ∀ x ∈ t.reads, ∀ y ∈ reads, y ∉ t.reads → ∀ op op',
        (t.sv.sys.groups x.1).log[x.2]? = some (.getPutAppend op) →
        (t.sv.sys.groups y.1).log[y.2]? = some (.getPutAppend op') → op.id ≠ op'.id := by
      intro x hx y hy hy' op op' hop hop' heq
      obtain ⟨op₀, hop₀, -, hlt⟩ := h.read x hx
      obtain ⟨-, hargs⟩ := hnew y hy hy'
      rw [hop] at hop₀
      rw [hop'] at hargs
      cases hop₀
      cases hargs
      obtain ⟨hc, hr⟩ := Prod.mk.inj heq
      rw [hc, ← hnum, hr] at hlt
      exact lt_irrefl _ hlt
    by_cases hx' : x ∈ t.reads <;> by_cases hy' : y ∈ t.reads
    · exact h.readOnce x hx' y hy' op op' hop hop' hid
    · exact absurd hid (hdiff x hx' y hy hy' op op' hop hop')
    · exact absurd hid.symm (hdiff y hy' x hx hx' op' op hop' hop)
    · exact honce x hx hx' y hy hy'
  ret id res' n hmem := by
    rcases List.mem_append.1 hmem with hold | hnew
    · obtain ⟨q, hq, op, ⟨x, hx, hop, htake⟩, hid, hres⟩ := h.ret id res' n hold
      exact ⟨q, hq, op, ⟨x, hx, hop, htake.imp_right (hsub x)⟩, hid, hres⟩
    · cases List.mem_singleton.1 hnew
      exact ⟨p, hp, args, htakes, rfl, hres⟩

/-- A write that is answered has taken effect. -/
theorem Inv.exists_takes (h : t.Inv) (hsv : t.sv.Inv) {args : GetPutAppendArgs}
    (hpend : (t.sv.clerks args.clientId).pending = some args) (hwrite : args.opType ≠ .get)
    (hans : (∃ g k, (t.sv.sys.server g k).AnswersDuplicate args) ∨ ∃ g j, t.sv.Replied args g j) :
    ∃ p < t.commits.length, ∃ x, t.commits[p]? = some x ∧
      (t.sv.sys.groups x.1).log[x.2]? = some (.getPutAppend args) ∧
        t.sv.sys.effectAt x = some args := by
  obtain ⟨g, q, hex⟩ := hsv.effect_of_answer (hsv.pending _ args hpend).1 hwrite hans
  have hmem : (g, q) ∈ t.commits :=
    (h.ordered.positions _).2 (List.getElem?_eq_some_iff.1 hex.log).1
  obtain ⟨p, hp⟩ := List.mem_iff_getElem?.1 hmem
  exact ⟨p, (List.getElem?_eq_some_iff.1 hp).1, (g, q), hp, hex.log, effectAt_of_executes hex⟩

/-- A clerk gets the answer to a request that is known. -/
theorem Inv.duplicate (h : t.Inv) (hsv : t.sv.Inv) {c : Int} {g : Gid} {k : Nat}
    {args : GetPutAppendArgs}
    (hpend : (t.sv.clerks c).pending = some args)
    (hdup : (t.sv.sys.server g k).AnswersDuplicate args) :
    Inv { t with sv := t.sv.answered c, history := t.see (.ret args.id []) } := by
  obtain ⟨-, rfl, hnum⟩ := hsv.pending c args hpend
  obtain ⟨p, hp, x, hx, hlog, heffect⟩ := h.exists_takes hsv hpend hdup.1 (.inl ⟨g, k, hdup⟩)
  refine h.answered (fun _ hx => hx) (fun x hx hx' => absurd hx hx')
    (fun x hx hx' => absurd hx hx') hnum hp
    ⟨x, hx, hlog, .inl heffect⟩ ?_
  simp only [Store.step, if_neg hdup.1]

/-- What `execute` answers to a request that is served. -/
theorem value_of_replied {sv : Service} {args : GetPutAppendArgs} {g : Gid} {j : Nat}
    (h : sv.Replied args g j) :
    (sv.sys.server g j).checkShardAndState (key2shard args.key) ∧
      ((sv.sys.server g j).execute (.getPutAppend args)).2.value =
        if args.opType = .get then
          ((sv.sys.server g j).shards (key2shard args.key)).get args.key
        else [] := by
  have hok := h.2
  simp only [ShardKV.execute, ShardKV.processGetPutAppend] at hok ⊢
  by_cases hserves : (sv.sys.server g j).checkShardAndState (key2shard args.key)
  swap
  · rw [if_pos hserves] at hok
    cases hok
  refine ⟨hserves, ?_⟩
  rw [if_neg (not_not.2 hserves)]
  split
  · cases args.opType <;> rfl
  · next hknown =>
    rw [not_or] at hknown
    rw [if_neg hknown.1]

/-- A clerk gets the answer to a command in the log. -/
theorem Inv.reply (h : t.Inv) (hsv : t.sv.Inv) {c : Int} {g : Gid} {j : Nat}
    {args : GetPutAppendArgs}
    (hpend : (t.sv.clerks c).pending = some args) (hrep : t.sv.Replied args g j) :
    Inv { t with
      sv := t.sv.answered c
      history := t.see (.ret args.id ((t.sv.sys.server g j).execute (.getPutAppend args)).2.value)
      reads := if args.opType = .get then t.reads ++ [(g, j)] else t.reads } := by
  obtain ⟨-, rfl, hnum⟩ := hsv.pending c args hpend
  obtain ⟨hserves, hvalue⟩ := value_of_replied hrep
  rw [hvalue]
  by_cases hget : args.opType = .get
  · have hmem : (g, j) ∈ t.commits :=
      (h.ordered.positions _).2 (List.getElem?_eq_some_iff.1 hrep.1).1
    obtain ⟨p, hp⟩ := List.mem_iff_getElem?.1 hmem
    have hnew : ∀ x ∈ t.reads ++ [(g, j)], x ∉ t.reads → x = (g, j) := by
      intro x hx hx'
      exact List.mem_singleton.1 ((List.mem_append.1 hx).resolve_left hx')
    rw [if_pos hget, if_pos hget]
    refine h.answered (fun x hx => List.mem_append_left _ hx) (fun x hx hx' => ?_)
      (fun x hx hx' y hy hy' => (hnew x hx hx').trans (hnew y hy hy').symm) hnum
      (List.getElem?_eq_some_iff.1 hp).1
      ⟨(g, j), hp, hrep.1, .inr (List.mem_append_right _ (List.mem_singleton_self _))⟩ ?_
    · rw [hnew x hx hx']
      exact ⟨hget, hrep.1⟩
    · simp only [Store.step, if_pos hget]
      exact h.ordered.served p (g, j) args hp hrep.1 hserves
  · obtain ⟨p, hp, x, hx, hlog, heffect⟩ := h.exists_takes hsv hpend hget (.inr ⟨g, j, hrep⟩)
    rw [if_neg hget, if_neg hget]
    refine h.answered (fun _ hx => hx) (fun x hx hx' => absurd hx hx')
      (fun x hx hx' => absurd hx hx') hnum hp
      ⟨x, hx, hlog, .inl heffect⟩ ?_
    simp only [Store.step, if_neg hget]

/-- A step of the system. -/
theorem Inv.act (h : t.Inv) (hr : Reach System.step Always .init t.sv.sys)
    (hkeep : KeepsOwners t.sv.sys)
    {a : Action} {sys' : System} (hzero : t.NoGroupZero (.act a))
    (hst : t.sv.sys.step a = some sys') :
    Inv { t with
      sv := { t.sv with sys := sys' }
      commits := t.commits ++ t.sv.sys.newCommits a } := by
  have hgrow := grows_step hst
  have hpos : ∀ x ∈ t.commits, x.2 < (t.sv.sys.groups x.1).log.length := fun x hx =>
    (h.ordered.positions x).1 hx
  have hlen : t.commits.length ≤ (t.commits ++ t.sv.sys.newCommits a).length := by
    rw [List.length_append]
    exact Nat.le_add_right _ _
  -- commits from before are as they were
  have hold : ∀ {p : Nat} {x op}, p < t.commits.length →
      (t.commits ++ t.sv.sys.newCommits a)[p]? = some x →
        (sys'.groups x.1).log[x.2]? = some (.getPutAppend op) →
      t.commits[p]? = some x ∧ (t.sv.sys.groups x.1).log[x.2]? = some (.getPutAppend op) := by
    intro p x op hp hx hop
    rw [List.getElem?_append_left hp] at hx
    have hlt := hpos x (List.mem_of_getElem? hx)
    rw [hgrow.log_getElem? (List.getElem?_eq_getElem hlt), ← List.getElem?_eq_getElem hlt] at hop
    exact ⟨hx, hop⟩
  have hread : ∀ x ∈ t.reads, ∀ op, (sys'.groups x.1).log[x.2]? = some (.getPutAppend op) →
      (t.sv.sys.groups x.1).log[x.2]? = some (.getPutAppend op) := by
    intro x hx op hop
    obtain ⟨op', hop', -⟩ := h.read x hx
    rw [hgrow.log_getElem? hop'] at hop
    rwa [hop']
  refine ⟨?_, fun op => ?_, h.times, fun e he => (h.bounded e he).trans hlen, ?_, h.issued,
    ?_, ?_, ?_⟩
  · exact h.ordered.step (origin_reach hr) (custody_reach (hkeep.reach hr)) hkeep (hkeep.clean hr)
      (fun op => (h.zero op).2) hst
  · rw [← not_or]
    intro hop
    rcases step_client hst hop with hbefore | ⟨k, rfl⟩
    · exact hbefore.elim (h.zero op).1 (h.zero op).2
    · exact hzero rfl
  · intro id op n hmem
    obtain ⟨hid, hop, hafter⟩ := h.call id op n hmem
    refine ⟨hid, hop, fun p hp x op' hx hop' => ?_⟩
    obtain ⟨hx, hop'⟩ := hold (hp.trans_le (h.bounded _ hmem)) hx hop'
    exact hafter p hp x op' hx hop'
  · intro x hx
    obtain ⟨op, hop, hrest⟩ := h.read x hx
    exact ⟨op, hgrow.log_getElem? hop, hrest⟩
  · intro x hx y hy op op' hop hop'
    exact h.readOnce x hx y hy op op' (hread x hx op hop) (hread y hy op' hop')
  · intro id res n hmem
    obtain ⟨p, hp, op, ⟨x, hx, hop, htake⟩, hid, hres⟩ := h.ret id res n hmem
    have hlt := (List.getElem?_eq_some_iff.1 hx).1
    refine ⟨p, hp, op, ⟨x, ?_, hgrow.log_getElem? hop, ?_⟩, hid, ?_⟩
    · exact (List.getElem?_append_left hlt).trans hx
    · exact htake.imp_left (hgrow.effectAt (hpos x (List.mem_of_getElem? hx))).trans
    · rw [hgrow.storeAt hpos hlt.le]
      exact hres

/-- A traced run is a run of the service. -/
theorem reach_service (h : Reach Traced.step NoGroupZero {} t) :
    Reach Service.step Always .init t.sv := by
  induction h with
  | init => exact .init
  | step _ _ hst ih => exact ih.step trivial (step_service hst)

/-- The invariant holds in every reachable state, if no shard is left to group 0. -/
theorem inv_reach (h : Reach Traced.step NoGroupZero {} t) (hkeep : KeepsOwners t.sv.sys) :
    t.Inv := by
  induction h with
  | init => exact inv_init
  | @step t t' e hr hok hst ih =>
    have hsv := Service.inv_reach (reach_service hr)
    cases Traced.stepped hst with
    | @call c key value opType args hargs hnone =>
      subst hargs
      exact (ih hkeep).called hsv hnone rfl
    | act _ hsys =>
      have hkeep := hkeep.of_grows (grows_step hsys)
      exact (ih hkeep).act (Service.reach_sys (reach_service hr)) hkeep hok hsys
    | duplicate hpend hdup => exact (ih hkeep).duplicate hsv hpend hdup
    | reply hpend hrep => exact (ih hkeep).reply hsv hpend hrep

end Traced

/-! ## The order of the requests -/

/-- The request that takes effect, or is answered, by commit number `p`. -/
def Traced.point (t : Traced) (p : Nat) : Option ((Int × Int) × GetPutAppendArgs) := do
  let x ← t.commits[p]?
  match (t.sv.sys.groups x.1).log[x.2]? with
  | some (.getPutAppend op) =>
    if t.sv.sys.effectAt x = some op ∨ x ∈ t.reads then some (op.id, op) else none
  | _ => none

section
variable {t : Traced} {p q : Nat} {op op' : GetPutAppendArgs}

/-- The point at a position is that of the request that takes effect there. -/
theorem Traced.point_eq_some {y : (Int × Int) × GetPutAppendArgs} :
    t.point p = some y ↔ t.Takes p y.2 ∧ y.1 = y.2.id := by
  constructor
  · intro h
    obtain ⟨x, hx, h⟩ := Option.bind_eq_some_iff.1 h
    split at h
    · next op hop =>
      rw [Option.ite_none_right_eq_some] at h
      obtain ⟨htake, heq⟩ := h
      cases heq
      exact ⟨⟨x, hx, hop, htake⟩, rfl⟩
    · cases h
  · rintro ⟨⟨x, hx, hop, htake⟩, hid⟩
    simp only [Traced.point, hx, hop, Option.bind_eq_bind, Option.bind_some, if_pos htake, ← hid]

/-- A request has one place in the order. -/
theorem Traced.Inv.takes_unique (h : t.Inv) (hsv : t.sv.Inv) (hp : t.Takes p op)
    (hq : t.Takes q op') (hid : op.id = op'.id) : p = q := by
  obtain ⟨x, hx, hop, hx'⟩ := hp
  obtain ⟨y, hy, hop', hy'⟩ := hq
  have hissued : ∀ {x : Gid × Nat} {op},
    (t.sv.sys.groups x.1).log[x.2]? = some (.getPutAppend op) →
      op ∈ t.sv.issued := fun hop => hsv.command _ _ (.inl (List.mem_of_getElem? hop))
  obtain ⟨hc, hr⟩ := Prod.mk.inj hid
  obtain rfl := hsv.unique op (hissued hop) op' (hissued hop') hc hr
  have hget : ∀ {x : Gid × Nat}, (t.sv.sys.groups x.1).log[x.2]? = some (.getPutAppend op) →
    x ∈ t.reads →
      op.opType = .get := by
    intro x hop hx
    obtain ⟨op₀, hop₀, hget, -⟩ := h.read x hx
    rw [hop] at hop₀
    cases hop₀
    exact hget
  rcases hx' with hx' | hx' <;> rcases hy' with hy' | hy'
  · exact h.ordered.once p q x y op hx hy hx' hy'
  · exact absurd (hget hop' hy') (effectAt_eq_some hx').2
  · exact absurd (hget hop hx') (effectAt_eq_some hy').2
  · obtain rfl := h.readOnce x hx' y hy' op op hop hop' rfl
    exact (List.getElem?_inj (List.getElem?_eq_some_iff.1 hx).1 h.ordered.nodup).1
      (hx.trans hy.symm)

/-- The store after a request. -/
theorem Traced.Inv.storeAt_takes (h : t.Inv) (hp : t.Takes p op) :
    t.sv.sys.storeAt t.commits (p + 1) = (t.sv.sys.storeAt t.commits p).write op := by
  obtain ⟨x, hx, hop, hx'⟩ := hp
  rw [storeAt_succ hx]
  rcases hx' with heffect | hread
  · rw [heffect]
  · obtain ⟨op₀, hop₀, hget, -⟩ := h.read x hread
    rw [hop] at hop₀
    cases hop₀
    cases heffect : t.sv.sys.effectAt x with
    | none => simp only [Store.write, hget]
    | some op₁ =>
      obtain ⟨hop₁, hwrite⟩ := effectAt_eq_some heffect
      rw [hop] at hop₁
      cases hop₁
      exact absurd hget hwrite

/-- Other commits change nothing. -/
theorem Traced.storeAt_of_point_eq_none (hp : t.point p = none) :
    t.sv.sys.storeAt t.commits (p + 1) = t.sv.sys.storeAt t.commits p := by
  cases hx : t.commits[p]? with
  | none =>
    have hle := List.getElem?_eq_none_iff.1 hx
    rw [System.storeAt, System.storeAt, List.take_of_length_le hle,
      List.take_of_length_le (Nat.le_succ_of_le hle)]
  | some x =>
    rw [storeAt_succ hx]
    cases heffect : t.sv.sys.effectAt x with
    | none => rfl
    | some op =>
      have htakes : t.Takes p op := ⟨x, hx, (effectAt_eq_some heffect).1, .inl heffect⟩
      have hsome : t.point p = some (op.id, op) := point_eq_some.2 ⟨htakes, rfl⟩
      rw [hp] at hsome
      cases hsome

end

/-- **The sharded store is linearizable** in every run in which no shard is left to group 0,
whatever the controller is asked for and however far the groups are with their configs. -/
theorem shardkv_linearizable {t : Traced} (h : Reach Traced.step Traced.NoGroupZero {} t)
    (hkeep : KeepsOwners t.sv.sys) :
    Linearizable Store.step (fun _ => []) (t.history.map (·.1)) := by
  have hinv := Traced.inv_reach h hkeep
  have hsv := Service.inv_reach (Traced.reach_service h)
  refine Linearizable.of_times t.point (t.sv.sys.storeAt t.commits) t.commits.length hinv.times
    ?_ ?_ ?_ ?_ ?_
    (fun p hp => Traced.storeAt_of_point_eq_none hp) ?_
  · intro p y hy
    obtain ⟨⟨x, -, hop, -⟩, hid⟩ := Traced.point_eq_some.1 hy
    obtain ⟨n, hn⟩ := hinv.issued y.2 (hsv.command _ _ (.inl (List.mem_of_getElem? hop)))
    exact ⟨n, hid ▸ hn⟩
  · intro p q y z hy hz hid
    obtain ⟨hp, hy'⟩ := Traced.point_eq_some.1 hy
    obtain ⟨hq, hz'⟩ := Traced.point_eq_some.1 hz
    exact hinv.takes_unique hsv hp hq (hy'.symm.trans (hid.trans hz'))
  · intro id res n hmem
    obtain ⟨p, hp, op, htakes, rfl, -⟩ := hinv.ret id res n hmem
    exact ⟨p, hp.trans_le (hinv.bounded _ hmem), op, Traced.point_eq_some.2 ⟨htakes, rfl⟩⟩
  · intro p y op n hy hmem
    obtain ⟨⟨x, hx, hop, -⟩, hid⟩ := Traced.point_eq_some.1 hy
    by_contra hlt
    exact (hinv.call _ _ n hmem).2.2 p (not_le.1 hlt) x y.2 hx hop hid.symm
  · intro p y res n hy hmem
    obtain ⟨hp, hid⟩ := Traced.point_eq_some.1 hy
    obtain ⟨q, hq, op, htakes, hid', -⟩ := hinv.ret _ res n hmem
    rwa [hinv.takes_unique hsv hp htakes (hid.symm.trans hid'.symm)]
  · intro p y hy
    obtain ⟨hp, hid⟩ := Traced.point_eq_some.1 hy
    refine ⟨hinv.storeAt_takes hp, fun res n hmem => ?_⟩
    obtain ⟨q, -, op, htakes, hid', hres⟩ := hinv.ret _ res n hmem
    have hid'' : y.2.id = op.id := hid.symm.trans hid'.symm
    obtain rfl := hinv.takes_unique hsv hp htakes hid''
    obtain ⟨x, hx, hop, -⟩ := hp
    obtain ⟨x', hx', hop', -⟩ := htakes
    rw [hx] at hx'
    cases hx'
    rw [hop] at hop'
    cases hop'
    exact hres

/-- A clerk writes a key in group 1, which hands the shard over to group 2. There another clerk
appends to it, and the first one, which has not seen its answer, is told that its request is known;
then it reads the key. -/
def movedRun : List Service.Event :=
  .call 5 [10] [7] .put :: (handoverRun ++ [Action.insert 2 2 1 3, .commit 2 0]).map .act ++
    [.call 6 [10] [8] .append, .act (.client 2 3 ⟨[10], [8], .append, 0, 6⟩), .act (.commit 2 0),
      .reply 6 2 3,
      .duplicate 5 2 4, .call 5 [10] [] .get, .act (.client 2 4 ⟨[10], [], .get, 1, 5⟩),
        .act (.commit 2 0),
      .reply 5 2 4]

/-- A client reads from group 2 what was written while group 1 had the shard. -/
theorem shardkv_linearizable_moved :
    ∃ t, Reach Traced.step Traced.NoGroupZero {} t ∧ KeepsOwners t.sv.sys ∧
      (.ret (5, 1) [7, 8]) ∈ t.history.map (·.1) ∧
      Linearizable Store.step (fun _ => []) (t.history.map (·.1)) := by
  have hreach : Reach Traced.step Traced.NoGroupZero {} (reached _ _ _ movedRun) := reach_reached _
  have hkeep : KeepsOwners (reached Traced.step Traced.NoGroupZero {} movedRun).sv.sys := by
    decide +kernel
  exact ⟨_, hreach, hkeep, by decide +kernel, shardkv_linearizable hreach hkeep⟩

end DistLabs.Shardkv
