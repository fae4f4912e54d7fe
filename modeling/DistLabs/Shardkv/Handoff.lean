import DistLabs.Shardkv.Migration

/-!
# Handing a shard over

What a group installs by `InsertShard` under config `n` is what the shard's owner under config
`n - 1` had when it came to config `n` (`Origin.inserted`), and a shard is `gcing` only after such
a command (`gcing_inserted`). So a `DeleteShard` empties a shard only when its new owner has
committed the data (`deleted_after_insert`).

`processInsertShard` merges what it gets into the group's own copy of the shard. A group that gives
a shard to the invalid group 0 keeps its copy, and when it later pulls the shard from another
owner, old keys come back: `leftoverRun`. In the runs in which a group pulls a shard only when its
own copy is empty (`NoLeftover`) the new owner has exactly the old owner's data (`handoff_exact`).
-/

namespace DistLabs.Shardkv

open Lib Shardctrler

section
variable {sys sys' : System} {g g₁ g₂ : Gid} {k q j n : Nat} {i : Fin NShards}

/-! ## Where inserted data comes from -/

/-- A shard of an `InsertShard` command of group `g` comes from a replica of the group that owned
it before, under the config of the command. -/
theorem Origin.insert_source (h : Origin sys) {response : PullShardReply} {shard : Shard}
    (hs : sys.Starts g (.insertShard response)) (hi : response.shards[i]? = some shard)
    (hn : response.configNum = (sys.server g q).currentConfig.num) :
    ∃ k, response.configNum =
        (sys.server ((sys.server g q).lastConfig.shards i) k).currentConfig.num ∧
      ((sys.server ((sys.server g q).lastConfig.shards i) k).shards i).state = .bePulling ∧
      shard.shardKVDB =
        ((sys.server ((sys.server g q).lastConfig.shards i) k).shards i).shardKVDB ∧
      response.lastRequestMap =
        (sys.server ((sys.server g q).lastConfig.shards i) k).lastRequestMap := by
  cases hs with
  | client hc => cases clientCommand_eq hc
  | @insert _ oldGid k k' ids reply hids hreply hok =>
    subst hreply
    have hout := getShards_ok hok
    obtain ⟨hmem, hstate, hdb⟩ := hout.shards i shard hi
    obtain ⟨-, hold⟩ := shardIdsFor_spec hids i hmem
    have hlast := ((h.matches g k).eq_of_num (h.matches g q) hn).2
    rw [hlast] at hold
    subst hold
    exact ⟨k', hout.num, hstate, hdb, hout.requests⟩

/-- Such a shard has the data that its owner had when it came to the config, and the table of
requests that comes with it is not older. -/
theorem Origin.inserted (h : Origin sys) {response : PullShardReply} {shard : Shard}
    (hs : sys.Starts g (.insertShard response)) (hi : response.shards[i]? = some shard)
    (hn : response.configNum = (sys.server g q).currentConfig.num)
    (hlast : (sys.server g q).lastConfig.shards i = g₁) :
    ∃ p, sys.Adopts g₁ response.configNum p ∧
      shard.shardKVDB = ((sys.server g₁ (p + 1)).shards i).shardKVDB ∧
      RequestsLe (sys.server g₁ (p + 1)).lastRequestMap response.lastRequestMap := by
  subst hlast
  obtain ⟨k, hnum, hstate, hdb, hreq⟩ := h.insert_source hs hi hn
  obtain ⟨p, ha⟩ := exists_adopts sys _ k ((h.matches _ k).num_pos hstate) le_rfl
  refine ⟨p, by rw [hnum]; exact ha, hdb.trans (h.frozen ha rfl hstate), ?_⟩
  rw [hreq]
  exact requestsLe_server (ha.le_num_iff.1 le_rfl)

/-- Group `g` moves shard `i` out of `pulling` under config `n` by command number `q` of its log,
which installs `shard`. -/
def System.Installs (sys : System) (g : Gid) (n : Nat) (i : Fin NShards) (q : Nat)
    (shard : Shard) : Prop :=
  ∃ response, (sys.groups g).log[q]? = some (.insertShard response) ∧ response.configNum = n ∧
    response.shards[i]? = some shard ∧ (sys.server g q).currentConfig.num = n ∧
    ((sys.server g q).shards i).state = .pulling ∧
    ((sys.server g (q + 1)).shards i).state = .gcing

/-- A shard is `gcing` only after a command that installed it. -/
theorem Origin.gcing_inserted (h : Origin sys)
    (hi : ((sys.server g k).shards i).state = .gcing) :
    ∃ q shard, sys.Installs g (sys.server g k).currentConfig.num i q shard := by
  revert hi
  refine server_induction (P := fun kv => (kv.shards i).state = .gcing →
    ∃ q shard, sys.Installs g kv.currentConfig.num i q shard) sys g (fun hi => by cases hi) ?_ k
  intro q command hq ih hi
  have happ := applied_server hq
  generalize hkv' : sys.server g (q + 1) = kv' at happ hi ⊢
  cases happ with
  | config hnum _ _ _ hshards =>
    rw [hshards] at hi
    exact absurd hi (reassign_gcing (serving_of_idle (h.idle_of_addConfig hq hnum) i))
  | shards _ hconfig _ hshards =>
    rw [hconfig]
    have hstep := hshards i
    generalize hshard' : kv'.shards i = shard' at hstep hi
    cases hstep with
    | same => exact ih hi
    | written _ _ hstate => exact ih (hstate.symm.trans hi)
    | inserted hnum hmem hstate =>
      exact ⟨q, _, _, hq, hnum, hmem, rfl, hstate, by rw [hkv', hshard']⟩
    | deleted => cases hi
    | adjusted => cases hi

/-! ## Deletion -/

/-- A `DeleteShard` for a shard that a group keeps for pulling was started by the new owner, after
it had installed the group's data. -/
theorem Origin.delete_source (h : Origin sys) {args : RemoveShardArgs}
    (hs : sys.Starts g₁ (.deleteShard args)) (hmem : i ∈ args.shardIds)
    (hn : args.configNum = (sys.server g₁ k).currentConfig.num)
    (hi : ((sys.server g₁ k).shards i).state = .bePulling) :
    ∃ q shard, sys.Installs ((sys.server g₁ k).currentConfig.shards i) args.configNum i q shard ∧
      shard.shardKVDB = ((sys.server g₁ k).shards i).shardKVDB := by
  cases hs with
  | client hc => cases clientCommand_eq hc
  | @delete g₂ _ k₂ ids hids =>
    obtain ⟨hgcing, hold⟩ := shardIdsFor_spec hids i hmem
    obtain ⟨hown, -, -⟩ := (h.matches g₂ k₂).incoming i (.inr hgcing)
    obtain ⟨hcur, -⟩ := (h.matches g₂ k₂).eq_of_num (h.matches g₁ k) hn
    rw [hcur] at hown
    rw [hown]
    obtain ⟨q, shard, hins⟩ := h.gcing_inserted hgcing
    refine ⟨q, shard, hins, ?_⟩
    obtain ⟨response, hq, hnum, hshard, hnum', -, -⟩ := hins
    have hlast : (sys.server g₂ q).lastConfig.shards i = g₁ := by
      rw [((h.matches g₂ q).eq_of_num (h.matches g₂ k₂) hnum').2]
      exact hold
    obtain ⟨p, ha, hdb, -⟩ := h.inserted (h.log g₂ _ (List.mem_of_getElem? hq)) hshard
      (hnum.trans hnum'.symm) hlast
    rw [hdb, h.frozen ha _ hi]
    exact (hnum.trans hn).symm

end

/-- The new owner has installed the shards and asks the old one to delete them. -/
def deletion : System := reached System.step Always .init
  (handoverRun ++ [.insert 2 2 1 3, .commit 2 0, .delete 2 3 1])

section
variable {sys sys' : System} {g g₁ g₂ : Gid} {k q j n : Nat} {i : Fin NShards}

/-- A group pulls a shard from another one only when its own copy is empty. -/
def NoLeftover (sys : System) (a : Action) : Prop :=
  ∀ p ∈ sys.adopting a, ∀ i, p.2.shards i = p.1 → (sys.state p.1).currentConfig.shards i ≠ p.1 →
    (sys.state p.1).currentConfig.shards i ≠ 0 → ((sys.state p.1).shards i).shardKVDB = ∅

instance (sys : System) (a : Action) : Decidable (NoLeftover sys a) :=
  inferInstanceAs (Decidable (∀ p ∈ sys.adopting a, _))

/-- While a shard is pulled, the copy of the group is empty. -/
theorem pulling_empty (h : Reach System.step NoLeftover .init sys) (g : Gid) (k : Nat)
    (hi : ((sys.server g k).shards i).state = .pulling) :
    ((sys.server g k).shards i).shardKVDB = ∅ := by
  induction h generalizing g k with
  | init =>
    obtain ⟨k', hk', heq⟩ := exists_server System.init g k
    obtain rfl : k' = 0 := Nat.le_zero.1 hk'
    rw [← heq] at hi
    cases hi
  | @step sys sys' a hr hok hst ih =>
    have ho := origin_reach hr
    rcases step_server hst g k with heq | ⟨j, command, rfl, hc, heq⟩
    · rw [heq] at hi ⊢
      exact ih g k hi
    rw [heq] at hi ⊢
    have happ := applied (sys.state g) command
    have hgid : (sys.state g).gid = g := server_gid sys g _
    cases happ with
    | config hnum _ _ _ hshards =>
      have hidle := serving_of_idle (ho.idle_of_started (List.mem_of_getElem? hc) hnum)
      rw [hshards, hgid] at hi
      obtain ⟨hnew, hold, h0⟩ := reassign_pulling (hidle i) hi
      rw [hshards, reassign_shardKVDB]
      exact hok (g, _) (adopting_commit hc hnum) i hnew hold h0
    | shards hgid hconfig hlast hshards =>
      have hev := (hshards i).evolves
      rw [hi] at hev
      have hi₀ := hev.of_pulling
      rw [applied_frozen (.shards hgid hconfig hlast hshards) (by rw [hconfig]) _
        (hi.trans hi₀.symm)]
      · exact ih g _ hi₀
      · rintro ⟨-, hs | hs⟩ <;> rw [hi₀] at hs <;> cases hs

/-- In the runs in which a group pulls a shard only when its own copy is empty: when group `g₂`
installs a shard that passes to it from group `g₁` in config `n + 1`, it has the data that `g₁` had
when it came to that config. -/
theorem handoff_exact (h : Reach System.step NoLeftover .init sys)
    (hst : sys.step (.commit g₂ j) = some sys') {response : PullShardReply}
    (hc : (sys.groups g₂).started[j]? = some (.insertShard response))
    (hpull : ((sys.state g₂).shards i).state = .pulling)
    (hgcing : ((sys'.state g₂).shards i).state = .gcing)
    (hnum : (sys.state g₂).currentConfig.num = n + 1) {last : Config}
    (hlast : sys.ctrler.configs[n]? = some last) (hg₁ : last.shards i = g₁) :
    ∃ p, sys.Adopts g₁ (n + 1) p ∧
      ((sys'.state g₂).shards i).shardKVDB = ((sys.server g₁ (p + 1)).shards i).shardKVDB := by
  have ho := origin_reach h
  have hlast' : (sys.state g₂).lastConfig.shards i = g₁ := by
    have hm := (ho.matches g₂ (sys.groups g₂).log.length).last
    rw [← System.state, hnum, Nat.add_sub_cancel, hlast] at hm
    rw [← Option.some.inj hm]
    exact hg₁
  rw [step_commit hst hc] at hgcing ⊢
  cases applied (sys.state g₂) (.insertShard response) with
  | shards _ _ _ hshards =>
    have hstep := hshards i
    generalize ((sys.state g₂).apply (.insertShard response)).shards i = shard' at hstep hgcing ⊢
    cases hstep with
    | same =>
      rw [hpull] at hgcing
      cases hgcing
    | @inserted _ shard hn hi _ =>
      obtain ⟨p, ha, hdb, -⟩ :=
        ho.inserted (ho.started g₂ _ (List.mem_of_getElem? hc)) hi hn hlast'
      rw [hn, hnum] at ha
      refine ⟨p, ha, ?_⟩
      have hempty : ((sys.state g₂).shards i).shardKVDB = ∅ := pulling_empty h g₂ _ hpull
      rw [← hdb, hempty]
      exact GoMap.empty_union _
end

/-- The new owner has pulled the shards of `handoverRun`. -/
def pulled : System := reached System.step NoLeftover .init (handoverRun ++ [.insert 2 2 1 3])

/-- Group 2 inserts what group 1 has at its config. -/
theorem pulled_exact :
    ∃ sys', pulled.step (.commit 2 0) = some sys' ∧ ∃ p, pulled.Adopts 1 2 p ∧
      ((sys'.state 2).shards 0).shardKVDB = ((pulled.server 1 (p + 1)).shards 0).shardKVDB := by
  have hreach : Reach System.step NoLeftover .init pulled := reach_reached _
  have hc : (pulled.groups 2).started[0]? = some (.insertShard
      { (pulled.server 1 3).getShards ⟨1, [0, 1, 2, 3, 4], 2⟩ with configNum := 2 }) := by
    decide +kernel
  obtain ⟨hsome, hpull, hnum, hlast, hown⟩ : (pulled.step (.commit 2 0)).isSome ∧
      ((pulled.state 2).shards 0).state = .pulling ∧ (pulled.state 2).currentConfig.num = 1 + 1 ∧
      pulled.ctrler.configs[1]? = some (pulled.state 2).lastConfig ∧
      (pulled.state 2).lastConfig.shards 0 = 1 := by
    decide +kernel
  obtain ⟨sys', hst⟩ := Option.isSome_iff_exists.1 hsome
  have hgcing : ((sys'.state 2).shards 0).state = .gcing := by
    rw [step_commit hst hc]
    decide +kernel
  exact ⟨sys', hst, handoff_exact hreach hst hc hpull hgcing hnum hlast hown⟩

/-- Group 1 writes a shard and leaves, so that its shards go to group 0. Then group 2 joins, and
after it group 1 again, which pulls the shard from group 2. -/
def leftoverRun : List Action :=
  [admin 0 (joinOne 1 "a")] ++ advance 1 0 ++ [.client 1 1 ⟨[10], [7], .put, 0, 5⟩, .commit 1 0,
    admin 1 (.leave [1]), admin 2 (joinOne 2 "b"), admin 3 (joinOne 1 "a")] ++
  advance 1 2 ++ advance 1 3 ++ advance 1 4 ++
  advance 2 0 ++ advance 2 1 ++ advance 2 2 ++ advance 2 3 ++ [.insert 1 5 2 4]

/-- The system after that. -/
def leftover : System := reached System.step Always .init leftoverRun

/-- Group 2 never had the key, and group 1 has it after it has pulled the shard from group 2. -/
theorem leftover_mixes :
    Reach System.step Always .init leftover ∧
      ∃ sys' response, leftover.step (.commit 1 0) = some sys' ∧
        (leftover.groups 1).started[0]? = some (.insertShard response) ∧
        ((leftover.state 1).shards 0).state = .pulling ∧
        ((sys'.state 1).shards 0).state = .gcing ∧
        (leftover.state 1).currentConfig.num = 4 ∧
        (leftover.ctrler.configs[3]?.map fun last => last.shards 0) = some 2 ∧
        (∀ p, leftover.Adopts 2 4 p →
          ((leftover.server 2 (p + 1)).shards 0).shardKVDB[([10] : GoString)]? = none) ∧
        ((sys'.state 1).shards 0).shardKVDB[([10] : GoString)]? = some [7] := by
  have hc : (leftover.groups 1).started[0]? = some (.insertShard
      { (leftover.server 2 4).getShards ⟨2, [0, 1, 2, 3, 4], 4⟩ with configNum := 4 }) := by
    decide +kernel
  obtain ⟨hsome, hpull, hnum, hfrom, hclean⟩ : (leftover.step (.commit 1 0)).isSome ∧
      ((leftover.state 1).shards 0).state = .pulling ∧ (leftover.state 1).currentConfig.num = 4 ∧
      (leftover.ctrler.configs[3]?.map fun last => last.shards 0) = some 2 ∧
      ((leftover.server 2 (3 + 1)).shards 0).shardKVDB[([10] : GoString)]? = none := by
    decide +kernel
  obtain ⟨sys', hst⟩ := Option.isSome_iff_exists.1 hsome
  have hadopts : leftover.Adopts 2 4 3 := ⟨(leftover.state 2).currentConfig, by decide +kernel⟩
  obtain ⟨hgcing, hmixed⟩ : ((sys'.state 1).shards 0).state = .gcing ∧
      ((sys'.state 1).shards 0).shardKVDB[([10] : GoString)]? = some [7] := by
    rw [step_commit hst hc]
    decide +kernel
  refine ⟨reach_reached _, sys', _, hst, hc, hpull, hgcing, hnum, hfrom, fun p hp => ?_, hmixed⟩
  obtain rfl := hp.unique hadopts
  exact hclean

end DistLabs.Shardkv
