import DistLabs.Shardkv.Handoff

/-!
# At most one group serves a shard

Groups go through the configs at their own speed. A group serves a shard when it is the owner in
its own current config and has the data: it kept the shard from the config before, pulled it from
the group that had it, or took it over from the invalid group 0, which nobody has to hand over. In
the first two cases every earlier owner has moved past the configs in which it owned the shard
(`System.Passed`): the group that gave it away had it in the same way. In the third case nothing
makes an earlier owner move, and `orphanRun` ends with two groups that serve the same shard. In the
runs in which a group takes a shard over from group 0 only when every earlier owner has moved on
(`NoEarlyTakeover`), at most one group serves it (`at_most_one_serves`).
-/

namespace DistLabs.Shardkv

open Lib Shardctrler

section
variable {sys sys' : System} {g : Gid} {k n : Nat} {i : Fin NShards} {command : Command}

/-! ## Earlier owners -/

/-- Every group that owned the shard in a config before number `n` has moved past that config. -/
def System.Passed (sys : System) (i : Fin NShards) (n : Nat) : Prop :=
  ∀ m < n, ∀ config ∈ sys.ctrler.configs[m]?, config.shards i ≠ 0 →
    m < (sys.state (config.shards i)).currentConfig.num

instance (sys : System) (i : Fin NShards) (n : Nat) : Decidable (sys.Passed i n) :=
  inferInstanceAs (Decidable (∀ m < n, _))

/-- A group takes a shard over from group 0 only when every earlier owner has moved on. -/
def NoEarlyTakeover (sys : System) (a : Action) : Prop :=
  ∀ p ∈ sys.adopting a, ∀ i, (sys.state p.1).currentConfig.shards i = 0 → p.2.shards i = p.1 →
    sys.Passed i p.2.num

instance (sys : System) (a : Action) : Decidable (NoEarlyTakeover sys a) :=
  inferInstanceAs (Decidable (∀ p ∈ sys.adopting a, _))

/-- Configs of groups advance. -/
theorem Grows.num_le (h : Grows sys sys') (g : Gid) :
    (sys.state g).currentConfig.num ≤ (sys'.state g).currentConfig.num := by
  have hlen := (h.log g).length_le
  rw [System.state, ← h.server le_rfl]
  exact server_num_le hlen

/-- Who has moved on stays so. -/
theorem System.Passed.mono (h : sys.Passed i n) (hgrow : Grows sys sys')
    (hn : n ≤ sys.ctrler.configs.length) : sys'.Passed i n := by
  intro m hm config hconfig h0
  have hold : sys.ctrler.configs[m]? = some sys.ctrler.configs[m] :=
    List.getElem?_eq_getElem (by omega)
  obtain rfl : sys.ctrler.configs[m] = config :=
    Option.some.inj ((hgrow.config hold).symm.trans hconfig)
  exact (h m hm _ hold h0).trans_le (hgrow.num_le _)

/-- The owner in config `n` has moved past it as well. -/
theorem System.Passed.succ (h : sys.Passed i n) {config : Config}
    (hn : sys.ctrler.configs[n]? = some config)
    (hg : config.shards i ≠ 0 → n < (sys.state (config.shards i)).currentConfig.num) :
    sys.Passed i (n + 1) := by
  intro m hm config' hconfig' h0
  rcases Nat.lt_succ_iff_lt_or_eq.1 hm with hlt | rfl
  · exact h m hlt config' hconfig' h0
  · obtain rfl := Option.some.inj (hn.symm.trans hconfig')
    exact hg h0

/-! ## The groups that have a shard -/

/-- The group has the shard's data: it is to serve it or to hand it over. -/
def ShardKV.Holds (kv : ShardKV) (i : Fin NShards) : Prop :=
  (kv.shards i).state = .bePulling ∨ kv.checkShardAndState i

/-- All earlier owners of a shard that some replica of a group holds have moved on. -/
def Custody (sys : System) : Prop :=
  ∀ g k i, (sys.server g k).Holds i → sys.Passed i (sys.server g k).currentConfig.num

/-- No group is ahead of the controller. -/
theorem Origin.num_le_length (h : Origin sys) (g : Gid) (k : Nat) :
    (sys.server g k).currentConfig.num ≤ sys.ctrler.configs.length :=
  (List.getElem?_eq_some_iff.1 (h.matches g k).current).1.le

/-- A group that still holds a shard under its new config held it before, or took it over from
group 0. -/
theorem holds_of_config {kv kv' : ShardKV} {newConfig : Config}
    (hidle : (kv.shards i).state = .serving) (hgid : kv'.gid = kv.gid)
    (hconfig : kv'.currentConfig = newConfig)
    (hshard : kv'.shards i =
      (kv.shards i).reassign kv.gid (kv.currentConfig.shards i) (newConfig.shards i))
    (hh : kv'.Holds i) :
    kv.checkShardAndState i ∨ kv.currentConfig.shards i = 0 ∧ newConfig.shards i = kv.gid := by
  rcases hh with hh | ⟨hown, hstate⟩
  · rw [hshard] at hh
    exact .inl ⟨(reassign_bePulling hidle hh).1, .inl hidle⟩
  · rw [hconfig, hgid] at hown
    rw [hshard, hown] at hstate
    have hne : ((kv.shards i).reassign kv.gid (kv.currentConfig.shards i) kv.gid).state ≠
        .pulling := by
      intro hp
      rw [hp] at hstate
      rcases hstate with hs | hs <;> cases hs
    rcases reassign_served hne with hold | h0
    · exact .inl ⟨hold, .inl hidle⟩
    · exact .inr ⟨h0, hown⟩

/-- A replica that adjusts a shard has served it before under this config. -/
theorem adjust_served {args : AdjustShardArgs}
    (hs : sys.Starts g (.adjustShardState args))
    (hn : args.configNum = (sys.state g).currentConfig.num) (hi : i ∈ args.shardIds) :
    ((sys.state g).shards i).state = .serving ∨ ((sys.state g).shards i).state = .gcing := by
  cases hs with
  | client hc => cases clientCommand_eq hc
  | @adjust _ oldGid k j ids hids =>
    have hgcing := (shardIdsFor_spec hids i hi).1
    obtain ⟨k', hk', heq⟩ := exists_server sys g k
    rw [← heq] at hgcing
    have hlater : Later (sys.server g k') (sys.state g) := later_server hk'
    have hev := hlater.evolves (by rw [← hn, ← heq]) i
    rw [hgcing] at hev
    rcases hev with hev | hev | ⟨hev, -⟩
    · exact .inr hev
    · exact .inl hev
    · cases hev

/-- A group that holds a shard after a command that keeps the config held it before, or has just
installed it. -/
theorem Origin.holds_of_shards (h : Origin sys) (hs : sys.Starts g command) {kv' : ShardKV}
    (hgid : kv'.gid = (sys.state g).gid)
    (hconfig : kv'.currentConfig = (sys.state g).currentConfig)
    (hstep : ShardStep (sys.state g) i command (kv'.shards i)) (hh : kv'.Holds i) :
    (sys.state g).Holds i ∨
      ∃ g₁ k, (sys.server g₁ k).currentConfig.num = (sys.state g).currentConfig.num ∧
        ((sys.server g₁ k).shards i).state = .bePulling := by
  have hholds : (kv'.shards i).state = ((sys.state g).shards i).state → (sys.state g).Holds i := by
    intro heq
    unfold ShardKV.Holds ShardKV.checkShardAndState at hh ⊢
    rwa [heq, hconfig, hgid] at hh
  have hown : (kv'.shards i).state ≠ .bePulling → (sys.state g).currentConfig.shards i = g := by
    intro hne
    have := (hh.resolve_left hne).1
    rwa [hconfig, hgid, System.state, server_gid] at this
  generalize hshard' : kv'.shards i = shard' at hstep hholds hown
  cases hstep with
  | same => exact .inl (hholds rfl)
  | written _ _ hstate => exact .inl (hholds hstate)
  | inserted hnum hi =>
    obtain ⟨k, hk, hstate, -⟩ := h.insert_source hs hi hnum
    exact .inr ⟨_, k, by rw [← hk, hnum], hstate⟩
  | deleted _ _ hstate =>
    exact absurd (hown (fun hc => by cases hc)) ((h.matches g _).outgoing i hstate).2.1
  | adjusted hnum hi =>
    refine .inl (.inr ⟨?_, adjust_served hs hnum hi⟩)
    rw [hown (fun hc => by cases hc)]
    exact (server_gid sys g _).symm

/-- A command that is committed leaves all earlier owners behind. -/
theorem Origin.custody_commit {j : Nat} (h : Origin sys) (hcust : Custody sys)
    (hok : NoEarlyTakeover sys (.commit g j)) (hst : sys.step (.commit g j) = some sys')
    (hc : (sys.groups g).started[j]? = some command)
    (hh : ((sys.state g).apply command).Holds i) :
    sys'.Passed i ((sys.state g).apply command).currentConfig.num := by
  have hgrow := grows_step hst
  have hgid : (sys.state g).gid = g := server_gid sys g _
  have hlen := h.num_le_length g (sys.groups g).log.length
  have hstate := step_commit hst hc
  have hheld : (sys.state g).Holds i → sys.Passed i (sys.state g).currentConfig.num :=
    hcust g (sys.groups g).log.length i
  generalize hkv' : (sys.state g).apply command = kv' at hstate hh ⊢
  have happ := applied (sys.state g) command
  rw [hkv'] at happ
  cases happ with
  | config hnum hgid' hconfig _ hshards =>
    have hidle := serving_of_idle (h.idle_of_started (List.mem_of_getElem? hc) hnum) i
    have hnum' := hnum
    rw [hconfig]
    rcases holds_of_config hidle hgid' hconfig (hshards i) hh with hserves | ⟨h0, hnew⟩
    · -- the group itself was the owner, and the new config takes it past the old one
      rw [hnum]
      refine ((hheld (.inr hserves)).mono hgrow hlen).succ
        (hgrow.config (h.matches g _).current) ?_
      intro _
      have hown : (sys.state g).currentConfig.shards i = g := hserves.1.trans hgid
      show (sys.state g).currentConfig.num <
        (sys'.state ((sys.state g).currentConfig.shards i)).currentConfig.num
      rw [hown, hstate, hconfig, hnum]
      exact Nat.lt_succ_self _
    · have hconf := h.addConfig (h.started g _ (List.mem_of_getElem? hc))
      refine (hok (g, _) (adopting_commit hc hnum) i h0 (hnew.trans hgid)).mono hgrow ?_
      exact (List.getElem?_eq_some_iff.1 hconf).1.le
  | shards hgid' hconfig _ hshards =>
    rw [hconfig]
    refine System.Passed.mono ?_ hgrow hlen
    rcases h.holds_of_shards (h.started g _ (List.mem_of_getElem? hc)) hgid' hconfig (hshards i) hh
      with hold | ⟨g₁, k, hnum, hbe⟩
    · exact hheld hold
    · rw [← hnum]
      exact hcust g₁ k i (.inl hbe)

/-- In the runs without early takeovers all earlier owners have moved on. -/
theorem custody_reach (h : Reach System.step NoEarlyTakeover .init sys) : Custody sys := by
  induction h with
  | init =>
    intro g k i hh m hm
    obtain ⟨k', hk', heq⟩ := exists_server System.init g k
    obtain rfl : k' = 0 := Nat.le_zero.1 hk'
    rw [← heq] at hm
    exact absurd hm (Nat.not_lt_zero m)
  | step hr hok hst ih =>
    have ho := origin_reach hr
    intro g k i hh
    rcases step_server hst g k with heq | ⟨j, command, rfl, hc, heq⟩
    · rw [heq] at hh ⊢
      exact (ih g k i hh).mono (grows_step hst) (ho.num_le_length g k)
    · rw [heq] at hh ⊢
      exact ho.custody_commit ih hok hst hc hh

/-! ## One server for each shard -/

/-- Of two groups at different configs at most the later one serves the shard. -/
theorem Custody.not_serves (hc : Custody sys) (ho : Origin sys) {h : Gid} (h0 : h ≠ 0)
    (hlt : (sys.state h).currentConfig.num < (sys.state g).currentConfig.num)
    (hg : (sys.state g).checkShardAndState i) : ¬ (sys.state h).checkShardAndState i := by
  rintro ⟨hown, -⟩
  have hown' : (sys.state h).currentConfig.shards i = h := hown.trans (server_gid sys h _)
  have hpassed := hc g _ i (.inr hg) _ hlt _ (ho.matches h _).current
  rw [← System.state, hown'] at hpassed
  exact lt_irrefl _ (hpassed h0)

/-- In the runs in which a group takes a shard over from group 0 only when every earlier owner has
moved on, no two groups serve a shard at the same time. -/
theorem at_most_one_serves (hr : Reach System.step NoEarlyTakeover .init sys) {g h : Gid}
    (hg : g ≠ 0) (hh : h ≠ 0) (hne : g ≠ h) (i : Fin NShards) :
    ¬ ((sys.state g).checkShardAndState i ∧ (sys.state h).checkShardAndState i) := by
  have ho := origin_reach hr
  have hc := custody_reach hr
  rintro ⟨hsg, hsh⟩
  rcases Nat.lt_trichotomy (sys.state g).currentConfig.num (sys.state h).currentConfig.num with
    hlt | heq | hgt
  · exact hc.not_serves ho hg hlt hsh hsg
  · have hconfig := ((ho.matches g _).eq_of_num (ho.matches h _) heq).1
    have hown : (sys.state g).currentConfig.shards i = g := hsg.1.trans (server_gid sys g _)
    have hown' : (sys.state h).currentConfig.shards i = h := hsh.1.trans (server_gid sys h _)
    rw [System.state, hconfig] at hown
    exact hne (hown.symm.trans hown')
  · exact hc.not_serves ho hh hgt hsg hsh

end

/-! ## Two runs -/

/-- Group 2 has pulled its shards from group 1. -/
def taken : System := reached System.step NoEarlyTakeover .init
  (handoverRun ++ [.insert 2 2 1 3, .commit 2 0])

/-- Group 2 serves the shard, and group 1 does not. -/
theorem taken_serves_once :
    (taken.state 2).checkShardAndState 0 ∧ ¬ (taken.state 1).checkShardAndState 0 := by
  have hserves : (taken.state 2).checkShardAndState 0 := by decide +kernel
  have hreach : Reach System.step NoEarlyTakeover .init taken := reach_reached _
  have honce := at_most_one_serves hreach (g := 2) (h := 1) (by decide) (by decide) (by decide) 0
  exact ⟨hserves, fun hother => honce ⟨hserves, hother⟩⟩

/-- Group 1 joins and leaves, and group 2 joins. Group 1 has not heard of that. -/
def orphanRun : List Action :=
  [admin 0 (joinOne 1 "a")] ++ advance 1 0 ++
  [admin 1 (.leave [1]), admin 2 (joinOne 2 "b")] ++ advance 2 0 ++ advance 2 1 ++ advance 2 2

/-- The system after that. -/
def orphan : System := reached System.step Always .init orphanRun

/-- Both groups serve the shard. -/
theorem orphan_served_twice :
    Reach System.step Always .init orphan ∧
      (orphan.state 1).checkShardAndState 0 ∧ (orphan.state 2).checkShardAndState 0 :=
  ⟨reach_reached _, by decide +kernel, by decide +kernel⟩

end DistLabs.Shardkv
