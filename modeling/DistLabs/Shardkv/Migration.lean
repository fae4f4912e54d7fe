import DistLabs.Shardkv.Origin

/-!
# Shards on their way

For every replica of every group the states of the shards match the two configs it knows
(`Origin.matches`), and it came to its config by one command of its log (`System.Adopts`). From
there on a shard that is to be pulled keeps its data (`Origin.frozen`), so that it does not matter
which replica answers `GetShards` and when (`getShards_consistent`). A shard is deleted only after
its new owner has committed what it pulled (`deleted_after_insert`).
-/

namespace DistLabs.Shardkv

open Lib Shardctrler

section
variable {sys sys' : System} {g : Gid} {k k' q n : Nat} {i : Fin NShards} {command : Command}

/-! ## The states of shards match the configs -/

/-- What a replica of group `g` knows of the configs, and which shards are on their way. -/
structure Matches (sys : System) (g : Gid) (kv : ShardKV) : Prop where
  current : sys.ctrler.configs[kv.currentConfig.num]? = some kv.currentConfig
  last : sys.ctrler.configs[kv.currentConfig.num - 1]? = some kv.lastConfig
  incoming : ∀ i, (kv.shards i).state = .pulling ∨ (kv.shards i).state = .gcing →
    kv.currentConfig.shards i = g ∧ kv.lastConfig.shards i ≠ g ∧ kv.lastConfig.shards i ≠ 0
  outgoing : ∀ i, (kv.shards i).state = .bePulling →
    kv.lastConfig.shards i = g ∧ kv.currentConfig.shards i ≠ g ∧ kv.currentConfig.shards i ≠ 0

/-- A group without shards on their way serves all of them. -/
theorem serving_of_idle {kv : ShardKV} (h : ¬ kv.isProcessShardCommand) (i : Fin NShards) :
    (kv.shards i).state = .serving := by
  by_contra hne
  exact h ⟨i, hne⟩

/-- A config that was started is one of the controller. -/
theorem Origin.addConfig (h : Origin sys) {newConfig : Config}
    (hs : sys.Starts g (.addConfig newConfig)) :
    sys.ctrler.configs[newConfig.num]? = some newConfig := by
  cases hs with
  | client hc => cases clientCommand_eq hc
  | requestConfig _ hquery hnum =>
    rw [hnum]
    exact h.history.of_processQuery (by exact_mod_cast hquery) hnum

/-- A group that starts is at the first config. -/
theorem Origin.matches_zero (h : Origin sys) : Matches sys g (sys.server g 0) := by
  refine ⟨h.history.zero, h.history.zero, fun i hi => ?_, fun i hi => ?_⟩
  · rcases hi with hi | hi <;> cases hi
  · cases hi

/-- One command keeps the match. -/
theorem Origin.matches_succ (h : Origin sys) (hq : (sys.groups g).log[q]? = some command)
    (hm : Matches sys g (sys.server g q)) : Matches sys g (sys.server g (q + 1)) := by
  have hgid := server_gid sys g q
  have happ := applied_server hq
  generalize sys.server g (q + 1) = kv' at happ ⊢
  cases happ with
  | config hnum _ hconfig hlast hshards =>
    have hidle := serving_of_idle (h.idle_of_addConfig hq hnum)
    rw [hgid] at hshards
    refine ⟨?_, ?_, fun i hi => ?_, fun i hi => ?_⟩
    · rw [hconfig]
      exact h.addConfig (h.log g _ (List.mem_of_getElem? hq))
    · rw [hconfig, hnum, hlast]
      exact hm.current
    · rw [hshards] at hi
      rw [hconfig, hlast]
      exact reassign_pulling (hidle i) (hi.resolve_right (reassign_gcing (hidle i)))
    · rw [hshards] at hi
      rw [hconfig, hlast]
      exact reassign_bePulling (hidle i) hi
  | shards _ hconfig hlast hshards =>
    refine ⟨?_, ?_, fun i hi => ?_, fun i hi => ?_⟩
    · rw [hconfig]
      exact hm.current
    · rw [hconfig, hlast]
      exact hm.last
    · have hev := (hshards i).evolves
      rw [hconfig, hlast]
      refine hm.incoming i ?_
      rcases hi with hi | hi
      · rw [hi] at hev
        exact .inl hev.of_pulling
      · rw [hi] at hev
        exact hev.of_gcing
    · have hev := (hshards i).evolves
      rw [hi] at hev
      rw [hconfig, hlast]
      exact hm.outgoing i hev.of_bePulling

/-- Every replica matches the configs. -/
theorem Origin.matches (h : Origin sys) (g : Gid) (k : Nat) : Matches sys g (sys.server g k) :=
  server_induction (P := Matches sys g) sys g h.matches_zero
    (fun _ _ hq => h.matches_succ hq) k

/-- A config number determines the configs that a replica knows. -/
theorem Matches.eq_of_num {g' : Gid} {kv kv' : ShardKV} (hm : Matches sys g kv)
    (hm' : Matches sys g' kv') (hnum : kv.currentConfig.num = kv'.currentConfig.num) :
    kv.currentConfig = kv'.currentConfig ∧ kv.lastConfig = kv'.lastConfig := by
  have hcur := hm'.current
  have hlast := hm'.last
  rw [← hnum] at hcur hlast
  exact ⟨Option.some.inj (hm.current.symm.trans hcur), Option.some.inj (hm.last.symm.trans hlast)⟩

/-- Under config 0 no shard is to be pulled. -/
theorem Matches.num_pos {kv : ShardKV} (hm : Matches sys g kv)
    (hi : (kv.shards i).state = .bePulling) : 0 < kv.currentConfig.num := by
  by_contra hpos
  obtain ⟨hlast, hcur, -⟩ := hm.outgoing i hi
  have heq : some kv.currentConfig = some kv.lastConfig := by
    rw [← hm.current, ← hm.last]
    congr 1
    omega
  rw [Option.some.inj heq] at hcur
  exact hcur hlast

/-! ## The command that brought a config -/

/-- Group `g` comes to config `n` by command number `q` of its log. -/
def System.Adopts (sys : System) (g : Gid) (n q : Nat) : Prop :=
  ∃ newConfig, (sys.groups g).log[q]? = some (.addConfig newConfig) ∧ newConfig.num = n ∧
    (sys.server g q).currentConfig.num + 1 = n

theorem System.Adopts.num_succ (h : sys.Adopts g n q) :
    (sys.server g (q + 1)).currentConfig.num = n := by
  obtain ⟨newConfig, hq, rfl, hnum⟩ := h
  rw [server_addConfig hq hnum.symm]

/-- The replicas that have reached config `n` are those behind the command. -/
theorem System.Adopts.le_num_iff (h : sys.Adopts g n q) :
    n ≤ (sys.server g k).currentConfig.num ↔ q < k := by
  constructor
  · intro hn
    by_contra hle
    obtain ⟨-, -, -, hnum⟩ := h
    have hle' : (sys.server g k).currentConfig.num ≤ (sys.server g q).currentConfig.num :=
      server_num_le (not_lt.1 hle)
    omega
  · intro hlt
    rw [← h.num_succ]
    exact server_num_le hlt

/-- A group adopts a config once. -/
theorem System.Adopts.unique (h : sys.Adopts g n q) (h' : sys.Adopts g n k) : q = k := by
  have hle := h.le_num_iff.1 h'.num_succ.ge
  have hle' := h'.le_num_iff.1 h.num_succ.ge
  omega

/-- What was adopted stays adopted. -/
theorem System.Adopts.mono (hgrow : Grows sys sys') (h : sys.Adopts g n q) :
    sys'.Adopts g n q := by
  obtain ⟨newConfig, hq, hn, hnum⟩ := h
  have hlt := (List.getElem?_eq_some_iff.1 hq).1
  exact ⟨newConfig, hgrow.log_getElem? hq, hn, by rw [hgrow.server hlt.le]; exact hnum⟩

/-- A replica came to every config up to its own by some command. -/
theorem exists_adopts (sys : System) (g : Gid) (k : Nat) (hpos : 0 < n)
    (hn : n ≤ (sys.server g k).currentConfig.num) : ∃ q, sys.Adopts g n q := by
  revert hn
  refine server_induction (P := fun kv => n ≤ kv.currentConfig.num → ∃ q, sys.Adopts g n q) sys g
    (fun hn => absurd hn (not_le.2 hpos)) ?_ k
  intro q command hq ih hn
  have happ := applied_server hq
  generalize sys.server g (q + 1) = kv' at happ hn
  cases happ with
  | config hnum _ hconfig =>
    rw [hconfig, hnum] at hn
    rcases Nat.lt_or_eq_of_le hn with hlt | heq
    · exact ih (by omega)
    · exact ⟨q, _, hq, by omega, heq.symm⟩
  | shards _ hconfig =>
    rw [hconfig] at hn
    exact ih hn

/-- A shard that is to be pulled has the data it had when the config came. By induction along the
log: under the config its group is not in charge of it. -/
theorem Origin.frozen (h : Origin sys) (ha : sys.Adopts g n q)
    (hn : (sys.server g k).currentConfig.num = n)
    (hi : ((sys.server g k).shards i).state = .bePulling) :
    ((sys.server g k).shards i).shardKVDB = ((sys.server g (q + 1)).shards i).shardKVDB := by
  revert hn hi
  refine server_induction (P := fun kv => kv.currentConfig.num = n →
    (kv.shards i).state = .bePulling →
    (kv.shards i).shardKVDB = ((sys.server g (q + 1)).shards i).shardKVDB) sys g ?_ ?_ k
  · intro _ hi
    cases hi
  intro k command hk ih hn hi
  rcases Nat.lt_trichotomy k q with hlt | rfl | hgt
  · exact absurd (ha.le_num_iff.1 hn.ge) (by omega)
  · rfl
  have hnum : (sys.server g k).currentConfig.num = n := by
    have hle := ha.le_num_iff.2 hgt
    have hle' : (sys.server g k).currentConfig.num ≤ (sys.server g (k + 1)).currentConfig.num :=
      server_num_le k.le_succ
    omega
  have hev := (later_server (Nat.le_succ k)).evolves (hn.trans hnum.symm) i
  rw [hi] at hev
  have hi' := hev.of_bePulling
  have hno : ¬ (sys.server g k).checkShardAndState i := by
    rintro ⟨hown, -⟩
    rw [server_gid] at hown
    exact ((h.matches g k).outgoing i hi').2.1 hown
  rw [applied_frozen (applied_server hk) (hn.trans hnum.symm) hno (hi.trans hi'.symm)]
  exact ih hnum hi'

/-- The group that comes to a new config by a step, and the config. -/
def System.adopting (sys : System) : Action → Option (Gid × Config)
  | .commit g j =>
    match (sys.groups g).started[j]? with
    | some (.addConfig newConfig) =>
      if newConfig.num = (sys.state g).currentConfig.num + 1 then some (g, newConfig) else none
    | _ => none
  | _ => none

theorem adopting_commit {j : Nat} {newConfig : Config}
    (hc : (sys.groups g).started[j]? = some (.addConfig newConfig))
    (hnum : newConfig.num = (sys.state g).currentConfig.num + 1) :
    sys.adopting (.commit g j) = some (g, newConfig) := by
  simp only [System.adopting, hc, if_pos hnum]

/-! ## `GetShards` -/

/-- What a reply of `GetShards` contains is what the group had when the config came, and its table
of requests is not older. -/
theorem Origin.getShards (h : Origin sys) {args : PullShardArgs} {shard : Shard}
    (hok : ((sys.server g k).getShards args).err = .ok)
    (hi : ((sys.server g k).getShards args).shards[i]? = some shard) :
    ∃ q, sys.Adopts g args.configNum q ∧
      shard.shardKVDB = ((sys.server g (q + 1)).shards i).shardKVDB ∧
      RequestsLe (sys.server g (q + 1)).lastRequestMap
        ((sys.server g k).getShards args).lastRequestMap := by
  have hout := getShards_ok hok
  obtain ⟨-, hstate, hdb⟩ := hout.shards i shard hi
  obtain ⟨q, ha⟩ := exists_adopts sys g k ((h.matches g k).num_pos hstate) le_rfl
  refine ⟨q, by rw [hout.num]; exact ha, hdb.trans (h.frozen ha rfl hstate), ?_⟩
  rw [hout.requests]
  exact requestsLe_server (ha.le_num_iff.1 le_rfl)

/-- Any two replies of `GetShards` for one config that contain a shard agree on its data, whichever
replicas of the group gave them and when: it is the data the group had when it came to the
config. -/
theorem getShards_consistent (h : Reach System.step Always .init sys)
    (h' : Reach System.step Always sys sys') {args args' : PullShardArgs} {shard shard' : Shard}
    (hn : args.configNum = n) (hn' : args'.configNum = n)
    (hok : ((sys.server g k).getShards args).err = .ok)
    (hok' : ((sys'.server g k').getShards args').err = .ok)
    (hi : ((sys.server g k).getShards args).shards[i]? = some shard)
    (hi' : ((sys'.server g k').getShards args').shards[i]? = some shard') :
    shard.shardKVDB = shard'.shardKVDB ∧
      ∃ q, sys.Adopts g n q ∧
        shard.shardKVDB = ((sys.server g (q + 1)).shards i).shardKVDB ∧
        RequestsLe (sys.server g (q + 1)).lastRequestMap
          ((sys.server g k).getShards args).lastRequestMap := by
  subst hn
  have hgrow := grows_reach h'
  obtain ⟨q, ha, hdb, hreq⟩ := (origin_reach h).getShards hok hi
  obtain ⟨q', ha', hdb', -⟩ := (origin_reach (h.trans h')).getShards hok' hi'
  rw [hn'] at ha'
  obtain rfl := (ha.mono hgrow).unique ha'
  have hlt : q < (sys.groups g).log.length := by
    obtain ⟨_, hq, -⟩ := ha
    exact (List.getElem?_eq_some_iff.1 hq).1
  rw [hgrow.server hlt] at hdb'
  exact ⟨hdb.trans hdb'.symm, q, ha, hdb, hreq⟩

/-! ## Migration and configs -/

/-- In every replicated state of a group the shards on their way are those that the last two
configs of the controller assign to different groups, and a config takes effect only when there are
none. -/
theorem migration_matches_configs (h : Reach System.step Always .init sys) (g : Gid) :
    (∀ k i, ((sys.server g k).shards i).state = .pulling ∨
        ((sys.server g k).shards i).state = .gcing →
      (sys.server g k).currentConfig.shards i = g ∧
        (sys.server g k).lastConfig.shards i ≠ g ∧ (sys.server g k).lastConfig.shards i ≠ 0) ∧
    (∀ k i, ((sys.server g k).shards i).state = .bePulling →
      (sys.server g k).lastConfig.shards i = g ∧
        (sys.server g k).currentConfig.shards i ≠ g ∧
        (sys.server g k).currentConfig.shards i ≠ 0) ∧
    (∀ k, 0 < (sys.server g k).currentConfig.num →
      sys.ctrler.configs[(sys.server g k).currentConfig.num - 1]? =
        some (sys.server g k).lastConfig) ∧
    (∀ q newConfig, (sys.groups g).log[q]? = some (.addConfig newConfig) →
      newConfig.num = (sys.server g q).currentConfig.num + 1 →
      ∀ i, ((sys.server g q).shards i).state = .serving) := by
  have ho := origin_reach h
  refine ⟨fun k => (ho.matches g k).incoming, fun k => (ho.matches g k).outgoing,
    fun k _ => (ho.matches g k).last, fun q newConfig hq hnum => ?_⟩
  exact serving_of_idle (ho.idle_of_addConfig hq hnum)

end

/-! ## A run -/

/-- An operation of an administrator. -/
def admin (requestId : Int) (request : Request) : Action :=
  .ctrler ⟨.increasing, .increasing, .increasing, fun _ => .increasing⟩ ⟨0, requestId, request⟩

/-- A `Join` of one group of one server. -/
def joinOne (g : Gid) (name : String) : Request :=
  .join ((∅ : GoMap Gid (List String)).insert g [name])

/-- Group `g`, whose log has `k` commands, comes to its next config. -/
def advance (g : Gid) (k : Nat) : List Action := [.requestConfig g k, .commit g 0]

/-- Group 1 has all shards and writes one of them; then half of them, with that one, go to group
2. -/
def handoverRun : List Action :=
  [admin 0 (joinOne 1 "a")] ++ advance 1 0 ++
  [.client 1 1 ⟨[10], [7], .put, 0, 5⟩, .commit 1 0, admin 1 (joinOne 2 "b")] ++
  advance 1 2 ++ advance 2 0 ++ advance 2 1

/-- The system after that. -/
def handover : System := reached System.step Always .init handoverRun

theorem handover_reach : Reach System.step Always .init handover := reach_reached _

/-- What group 1 hands over is what it had when it came to the config. -/
theorem handover_consistent :
    ∃ q, handover.Adopts 1 2 q ∧
      (∅ : GoMap GoString GoString).insert [10] [7] =
        ((handover.server 1 (q + 1)).shards 0).shardKVDB ∧
      RequestsLe (handover.server 1 (q + 1)).lastRequestMap
        ((handover.server 1 3).getShards ⟨1, [0], 2⟩).lastRequestMap := by
  have hok : ((handover.server 1 3).getShards ⟨1, [0], 2⟩).err = .ok := by decide +kernel
  have hi : ((handover.server 1 3).getShards ⟨1, [0], 2⟩).shards[(0 : Fin NShards)]? =
      some ⟨(∅ : GoMap GoString GoString).insert [10] [7], .serving⟩ := by decide +kernel
  exact (getShards_consistent handover_reach .init rfl rfl hok hok hi hi).2

/-- Group 2 has to pull the shard. -/
theorem handover_matches :
    ((handover.server 2 2).shards 0).state = .pulling ∧
      (handover.server 2 2).currentConfig.shards 0 = 2 ∧
      (handover.server 2 2).lastConfig.shards 0 ≠ 0 := by
  have hi : ((handover.server 2 2).shards 0).state = .pulling := by decide +kernel
  have hm := (migration_matches_configs handover_reach 2).1 2 0 (.inl hi)
  exact ⟨hi, hm.1, hm.2.2⟩

end DistLabs.Shardkv
