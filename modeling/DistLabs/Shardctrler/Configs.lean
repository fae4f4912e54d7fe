import DistLabs.Lib.Transition
import DistLabs.Shardctrler.History
import DistLabs.Shardctrler.Orders
import DistLabs.Shardctrler.Rebalance

/-!
# The configs that operations make

What `processJoin`, `processLeave` and `processMove` append is determined by the latest config
(`processJoin_eq`, `processLeave_eq`, `processMove_eq`). Rebalancing moves no more shards than it
has to (`adjustShards_minimal`), and a config that it has made is valid: every shard is in a group
of the config. `Move` does not look at the groups. If its target is none of them, the new config is
not valid (`moveAway_invalid`), and if it always is one, all configs are valid (`configs_valid`).
-/

namespace DistLabs.Shardctrler

open Lib Finset

variable {sc : ShardCtrler} {last : Config}

/-! ## The new config -/

/-- `copyGroups` copies. -/
theorem copyGroups_eq (o : RangeOrder Gid) (last : Config) :
    ShardCtrler.copyGroups o last = last.groups := by
  refine Std.ExtTreeMap.ext_getElem? fun g => ?_
  rw [ShardCtrler.copyGroups, GoMap.getElem?_foldl_range o fun _ servers => servers,
    Std.ExtTreeMap.getElem?_empty, Option.or_none, Option.map_id']

/-- `processJoin` adds the groups that join. -/
theorem processJoin_eq (o : Orders) (hlast : sc.configs.getLast? = some last)
    (servers : GoMap Gid (List String)) :
    ∃ groups : GoMap Gid (List String), (∀ g, g ∈ groups ↔ g ∈ last.groups ∨ g ∈ servers) ∧
      sc.processJoin o servers = (adjustShards o groups last.shards).map
        (sc.addConfig last groups) := by
  refine ⟨(servers.range o.servers).foldl (fun newGroups e => newGroups.insert e.1 e.2)
    (ShardCtrler.copyGroups o.copyGroups last), fun g => ?_, ?_⟩
  · rw [copyGroups_eq, Std.ExtTreeMap.mem_iff_isSome_getElem?,
      GoMap.getElem?_foldl_range o.servers fun _ servers => servers, Option.map_id',
        Option.isSome_or,
      Bool.or_eq_true, or_comm, Std.ExtTreeMap.mem_iff_isSome_getElem?,
      Std.ExtTreeMap.mem_iff_isSome_getElem?]
  · unfold ShardCtrler.processJoin
    rw [hlast]
    simp only [Option.bind_eq_bind, Option.bind_some]
    cases adjustShards o _ last.shards <;> rfl

/-- The groups that stay when `gids` leave. -/
theorem mem_foldl_erase (gids : List Gid) (groups : GoMap Gid (List String)) (g : Gid) :
    g ∈ gids.foldl (fun newGroups gid => newGroups.erase gid) groups ↔ g ∈ groups ∧ g ∉ gids := by
  induction gids generalizing groups with
  | nil => simp
  | cons gid gids ih =>
    rw [List.foldl_cons, ih, Std.ExtTreeMap.mem_erase, ne_eq, Std.LawfulEqCmp.compare_eq_iff_eq,
      List.mem_cons]
    grind

/-- The shards of groups that leave are in group 0. -/
def released (gids : List Gid) (shards : Fin NShards → Gid) : Fin NShards → Gid := fun i =>
  if shards i ∈ gids then 0 else shards i

/-- The loop over `gids` releases the shards of all of them. -/
theorem foldl_releaseShards (gids : List Gid) (shards : Fin NShards → Gid) :
    gids.foldl ShardCtrler.releaseShards shards = released gids shards := by
  induction gids generalizing shards with
  | nil =>
    funext i
    simp [released]
  | cons gid gids ih =>
    rw [List.foldl_cons, ih]
    funext i
    simp only [released, ShardCtrler.releaseShards, List.mem_cons]
    grind

/-- `processLeave` drops the groups that leave, and puts their shards in group 0 first. -/
theorem processLeave_eq (o : Orders) (hlast : sc.configs.getLast? = some last) (gids : List Gid) :
    ∃ groups : GoMap Gid (List String), (∀ g, g ∈ groups ↔ g ∈ last.groups ∧ g ∉ gids) ∧
      sc.processLeave o gids =
        (adjustShards o groups (released gids last.shards)).map (sc.addConfig last groups) := by
  refine ⟨_, fun g => mem_foldl_erase gids last.groups g, ?_⟩
  unfold ShardCtrler.processLeave
  rw [hlast]
  simp only [Option.bind_eq_bind, Option.bind_some, copyGroups_eq, foldl_releaseShards]
  cases adjustShards o _ _ <;> rfl

/-- `Move` is executed only if its shard is in range. -/
theorem processMove_inRange {sc' : ShardCtrler} {o : Orders} {shard : Int} {gid : Gid}
    (h : sc.processMove o shard gid = some sc') : 0 ≤ shard ∧ shard.toNat < NShards := by
  unfold ShardCtrler.processMove at h
  simp only [Option.bind_eq_bind, Option.bind_eq_some_iff] at h
  obtain ⟨last, -, h⟩ := h
  split at h
  · assumption
  · cases h

/-- `processMove` keeps the groups. -/
theorem processMove_eq (o : Orders) (hlast : sc.configs.getLast? = some last) {shard : Int}
    (gid : Gid) (h : 0 ≤ shard ∧ shard.toNat < NShards) :
    sc.processMove o shard gid =
      some (sc.addConfig last last.groups
        (Function.update last.shards ⟨shard.toNat, h.2⟩ gid)) := by
  unfold ShardCtrler.processMove
  rw [hlast]
  simp only [Option.bind_eq_bind, Option.bind_some, copyGroups_eq, dif_pos h]
  rfl

/-! ## Moving few shards -/

/-- Every shard is in a group of the config, or in group 0 if there is none. -/
def Config.Valid (config : Config) : Prop :=
  (config.groups ≠ ∅ → ∀ i, config.shards i ∈ config.groups) ∧
    (config.groups = ∅ → ∀ i, config.shards i = 0)

instance (config : Config) : Decidable config.Valid :=
  inferInstanceAs (Decidable ((config.groups ≠ ∅ → ∀ i, config.shards i ∈ config.groups) ∧
    (config.groups = ∅ → ∀ i, config.shards i = 0)))

/-- A valid config with groups of almost the same size. -/
structure Config.Balanced (config : Config) : Prop where
  valid : config.Valid
  even : ∀ g ∈ config.groups, ∀ h ∈ config.groups,
    load config.shards g ≤ load config.shards h + 1

/-- In a valid config every shard is in group 0 or in one of the groups. -/
theorem Config.Valid.zero_or_mem (h : last.Valid) (i : Fin NShards) :
    last.shards i = 0 ∨ last.shards i ∈ last.groups := by
  by_cases hne : last.groups = ∅
  · exact .inl (h.2 hne i)
  · exact .inr (h.1 hne i)

/-- When groups leave, the shards of the others stay where they are. -/
theorem Config.Valid.released_zero_or_mem (h : last.Valid) {gids : List Gid}
    {groups : GoMap Gid (List String)} (hgroups : ∀ g, g ∈ groups ↔ g ∈ last.groups ∧ g ∉ gids)
    (i : Fin NShards) :
    released gids last.shards i = 0 ∨ released gids last.shards i ∈ groups := by
  unfold released
  split
  · exact .inl rfl
  · next hi => exact (h.zero_or_mem i).imp_right fun hi' => (hgroups _).2 ⟨hi', hi⟩

/-- Without groups nothing is moved. -/
theorem adjustShards_empty (o : Orders) (newShards : Fin NShards → Gid) :
    adjustShards o ∅ newShards = some newShards :=
  if_pos Std.ExtTreeMap.isEmpty_empty

/-- After a `Join` on a balanced config, shards only move to groups that join. -/
theorem processJoin_moves (o : Orders) (hlast : sc.configs.getLast? = some last)
    (hbal : last.Balanced)
    (hzero : 0 ∉ last.groups) {servers : GoMap Gid (List String)} (hservers : 0 ∉ servers) :
    ∃ groups shards, sc.processJoin o servers = some (sc.addConfig last groups shards) ∧
      ∀ i, shards i ≠ last.shards i → shards i ∈ servers ∧ shards i ∉ last.groups := by
  obtain ⟨groups, hgroups, hjoin⟩ := processJoin_eq o hlast servers
  rw [hjoin]
  by_cases hne : groups = ∅
  · rw [hne, adjustShards_empty]
    exact ⟨_, _, rfl, fun i hi => absurd rfl hi⟩
  have hzero' : 0 ∉ groups := fun h0 => ((hgroups 0).1 h0).elim hzero hservers
  have hmem : ∀ i, last.shards i = 0 ∨ last.shards i ∈ groups := fun i =>
    (hbal.valid.zero_or_mem i).imp_right fun hi => (hgroups _).2 (.inl hi)
  obtain ⟨t, ht, hrun, hall, -⟩ := adjustShards_spec o last.shards hne
  have htargets : ∀ g, g ∈ targets groups last.shards ↔ g ∈ groups := fun g =>
    mem_targets hne hzero' hmem
  rw [ht]
  refine ⟨groups, t, rfl, fun i hi => ?_⟩
  have hnot : t i ∉ last.groups := by
    intro hold
    have hin := hbal.valid.1 (ne_empty_of_mem hold)
    -- the groups that join start without shards
    have hahead :
        Ahead last.groups.keys.toFinset (targets groups last.shards) (load last.shards) := by
      intro g hg h hh
      rw [List.mem_toFinset, Std.ExtTreeMap.mem_keys] at hg
      by_cases hh' : h ∈ last.groups
      · exact hbal.even h hh' g hg
      · have hempty : load last.shards h = 0 := load_eq_zero fun j hj => hh' (hj ▸ hin j)
        omega
    have hin' : ∀ j, last.shards j ∈ targets groups last.shards := fun j =>
      (htargets _).2 ((hgroups _).2 (.inl (hin j)))
    refine hrun.notMem_of_ahead hahead hin' i hi ?_
    rw [List.mem_toFinset, Std.ExtTreeMap.mem_keys]
    exact hold
  exact ⟨((hgroups _).1 ((htargets _).1 (hall i))).resolve_left hnot, hnot⟩

/-- After a `Leave` on a balanced config, only shards of groups that leave move. -/
theorem processLeave_moves (o : Orders) (hlast : sc.configs.getLast? = some last)
    (hbal : last.Balanced) (hzero : 0 ∉ last.groups) (gids : List Gid) :
    ∃ groups shards, sc.processLeave o gids = some (sc.addConfig last groups shards) ∧
      ∀ i, shards i ≠ last.shards i → last.shards i ∈ gids := by
  obtain ⟨groups, hgroups, hleave⟩ := processLeave_eq o hlast gids
  rw [hleave]
  by_cases hne : groups = ∅
  · rw [hne, adjustShards_empty]
    refine ⟨_, _, rfl, fun i hi => ?_⟩
    by_contra hno
    exact hi (if_neg hno)
  have hzero' : 0 ∉ groups := fun h0 => hzero ((hgroups 0).1 h0).1
  have hmem := hbal.valid.released_zero_or_mem hgroups
  have htargets : ∀ g, g ∈ targets groups (released gids last.shards) ↔ g ∈ groups := fun g =>
    mem_targets hne hzero' hmem
  obtain ⟨t, ht, hrun, -⟩ := adjustShards_spec o (released gids last.shards) hne
  rw [ht]
  refine ⟨groups, t, rfl, fun i hi => ?_⟩
  by_contra hno
  -- the groups that stay keep their sizes
  have hload : ∀ g ∈ groups, load (released gids last.shards) g = load last.shards g := by
    intro g hg
    have hg' := ((hgroups g).1 hg).2
    have hg0 : g ≠ 0 := fun hg0 => hzero' (hg0 ▸ hg)
    refine load_congr fun j => ?_
    unfold released
    grind
  have heven : EvenlyLoaded (targets groups (released gids last.shards))
      (load (released gids last.shards)) := by
    intro g hg h hh
    rw [htargets] at hg hh
    rw [hload g hg, hload h hh]
    exact hbal.even g ((hgroups g).1 hg).1 h ((hgroups h).1 hh).1
  have hstay : released gids last.shards i = last.shards i := if_neg hno
  have hout := hrun.notMem_of_even heven i (by rwa [hstay])
  rw [htargets, hstay, hgroups] at hout
  obtain ⟨g, hg⟩ := exists_mem_of_ne_empty hne
  exact hout ⟨hbal.valid.1 (ne_empty_of_mem ((hgroups g).1 hg).1) i, hno⟩

/-- **Rebalancing moves as few shards as possible**: no other balanced assignment differs in
fewer. -/
theorem adjustShards_minimal :
    (∀ (o : Orders) (newGroups : GoMap Gid (List String)) (newShards : Fin NShards → Gid),
      newGroups ≠ ∅ → 0 ∉ newGroups → (∀ i, newShards i = 0 ∨ newShards i ∈ newGroups) →
      ∃ t, adjustShards o newGroups newShards = some t ∧ (∀ i, t i ∈ newGroups) ∧
        (∀ g ∈ newGroups, ∀ h ∈ newGroups, load t g ≤ load t h + 1) ∧
        ∀ u : Fin NShards → Gid, (∀ i, u i ∈ newGroups) →
          (∀ g ∈ newGroups, ∀ h ∈ newGroups, load u g ≤ load u h + 1) →
          hammingDist newShards t ≤ hammingDist newShards u) ∧
    (∀ (o : Orders) (sc : ShardCtrler) (last : Config) (servers : GoMap Gid (List String)),
      sc.configs.getLast? = some last → last.Balanced → 0 ∉ last.groups → 0 ∉ servers →
      ∃ groups shards, sc.processJoin o servers = some (sc.addConfig last groups shards) ∧
        ∀ i, shards i ≠ last.shards i → shards i ∈ servers ∧ shards i ∉ last.groups) ∧
    (∀ (o : Orders) (sc : ShardCtrler) (last : Config) (gids : List Gid),
      sc.configs.getLast? = some last → last.Balanced → 0 ∉ last.groups →
      ∃ groups shards, sc.processLeave o gids = some (sc.addConfig last groups shards) ∧
        ∀ i, shards i ≠ last.shards i → last.shards i ∈ gids) := by
  refine ⟨fun o newGroups newShards hne hzero hmem => ?_,
    fun o sc last servers hlast hbal hzero hservers =>
      processJoin_moves o hlast hbal hzero hservers,
    fun o sc last gids hlast hbal hzero => processLeave_moves o hlast hbal hzero gids⟩
  obtain ⟨t, ht, hrun, hall, hload⟩ := adjustShards_groups o hne hzero hmem
  have htargets : ∀ g, g ∈ targets newGroups newShards ↔ g ∈ newGroups := fun g =>
    mem_targets hne hzero hmem
  refine ⟨t, ht, hall, hload,
    fun u hu heven => hrun.hammingDist_le (fun i => (htargets _).2 (hu i)) ?_⟩
  intro g hg h hh
  exact heven g ((htargets g).1 hg) h ((htargets h).1 hh)

/-- A second group joins a config with one group that has all shards, and leaves again. -/
theorem adjustShards_minimal_two :
    ∃ last : Config, last.Balanced ∧ last.groups ≠ ∅ ∧
      (∃ t, adjustShards .increasing last.groups last.shards = some t ∧
        (∀ i, t i ∈ last.groups) ∧
        (∀ g ∈ last.groups, ∀ h ∈ last.groups, load t g ≤ load t h + 1) ∧
        ∀ u : Fin NShards → Gid, (∀ i, u i ∈ last.groups) →
          (∀ g ∈ last.groups, ∀ h ∈ last.groups, load u g ≤ load u h + 1) →
          hammingDist last.shards t ≤ hammingDist last.shards u) ∧
      (∃ groups shards,
        ShardCtrler.processJoin .increasing ⟨[last], ∅⟩ (Std.ExtTreeMap.insert ∅ 2 ["b"]) =
          some (ShardCtrler.addConfig ⟨[last], ∅⟩ last groups shards) ∧
        ∀ i, shards i ≠ last.shards i →
          shards i ∈ (Std.ExtTreeMap.insert ∅ 2 ["b"] : GoMap Gid (List String)) ∧
            shards i ∉ last.groups) ∧
      ∃ groups shards, ShardCtrler.processLeave .increasing ⟨[last], ∅⟩ [1] =
          some (ShardCtrler.addConfig ⟨[last], ∅⟩ last groups shards) ∧
        ∀ i, shards i ≠ last.shards i → last.shards i ∈ [1] := by
  let last : Config := ⟨1, fun _ => 1, Std.ExtTreeMap.insert ∅ 1 ["a"]⟩
  have hmem : ∀ g, g ∈ last.groups → g = 1 := by
    intro g hg
    rcases Std.ExtTreeMap.mem_insert.1 hg with heq | hempty
    · exact (Std.LawfulEqCmp.eq_of_compare heq).symm
    · exact absurd hempty Std.ExtTreeMap.not_mem_empty
  have hbal : last.Balanced := by
    refine ⟨by decide, fun g hg h hh => ?_⟩
    rw [hmem g hg, hmem h hh]
    exact Nat.le_succ _
  obtain ⟨hmin, hjoin, hleave⟩ := adjustShards_minimal
  exact ⟨last, hbal, by decide, hmin _ _ _ (by decide) (by decide) (by decide),
    hjoin _ _ last _ rfl hbal (by decide) (by decide), hleave _ _ last _ rfl hbal (by decide)⟩

/-! ## Valid configs -/

/-- Rebalancing makes a valid config. -/
theorem adjustShards_valid {o : Orders} {groups : GoMap Gid (List String)}
    {newShards t : Fin NShards → Gid}
    (h : adjustShards o groups newShards = some t) (hzero : 0 ∉ groups)
    (hmem : ∀ i, newShards i = 0 ∨ newShards i ∈ groups) (num : Nat) :
    Config.Valid ⟨num, t, groups⟩ := by
  by_cases hne : groups = ∅
  · refine ⟨fun hne' => absurd hne hne', fun _ i => ?_⟩
    rw [hne, adjustShards_empty] at h
    cases h
    refine (hmem i).resolve_right fun hi => ne_empty_of_mem hi hne
  · refine ⟨fun _ i => ?_, fun hempty => absurd hempty hne⟩
    obtain ⟨t', ht', -, hall, -⟩ := adjustShards_spec o newShards hne
    cases h.symm.trans ht'
    exact (mem_targets hne hzero hmem).1 (hall i)

/-- One committed operation is executed, with some order of all loops over maps. -/
def ctrlerStep (sc : ShardCtrler) (e : Orders × Op) : Option ShardCtrler :=
  (sc.execute e.1 e.2).map (·.1)

/-- The operation makes no index run out of range. -/
def Op.InRange (op : Op) : Prop :=
  match op.request with
  | .move shard _ => 0 ≤ shard ∧ shard.toNat < NShards
  | .query num => -1 ≤ num
  | _ => True

instance : DecidablePred Op.InRange
  | ⟨_, _, .move _ _⟩ => inferInstanceAs (Decidable (_ ∧ _))
  | ⟨_, _, .query _⟩ => inferInstanceAs (Decidable (_ ≤ _))
  | ⟨_, _, .join _⟩ | ⟨_, _, .leave _⟩ => isTrue trivial

/-- The ids of groups that the operation brings in are positive. -/
def Op.PositiveGids (op : Op) : Prop :=
  match op.request with
  | .join servers => ∀ g ∈ servers.keys, 0 < g
  | .move _ gid => 0 < gid
  | _ => True

instance : DecidablePred Op.PositiveGids
  | ⟨_, _, .join _⟩ => inferInstanceAs (Decidable (∀ _ ∈ _, _))
  | ⟨_, _, .move _ _⟩ => inferInstanceAs (Decidable (_ < _))
  | ⟨_, _, .query _⟩ | ⟨_, _, .leave _⟩ => isTrue trivial

/-- What administrators may ask for. -/
def Administrative (_ : ShardCtrler) (e : Orders × Op) : Prop := e.2.InRange ∧ e.2.PositiveGids

instance (sc : ShardCtrler) (e : Orders × Op) : Decidable (Administrative sc e) :=
  inferInstanceAs (Decidable (_ ∧ _))

/-- The target of a `Move` that is executed is a group of the latest config. -/
def MovesToGroups (sc : ShardCtrler) (e : Orders × Op) : Prop :=
  match e.2.request with
  | .move _ gid => ¬ sc.isInvalidRequest e.2.clientId e.2.requestId →
      ∀ last ∈ sc.configs.getLast?, gid ∈ last.groups
  | _ => True

instance (sc : ShardCtrler) : DecidablePred (MovesToGroups sc)
  | (_, ⟨_, _, .move _ _⟩) => inferInstanceAs (Decidable (_ → ∀ _ ∈ _, _))
  | (_, ⟨_, _, .join _⟩) | (_, ⟨_, _, .leave _⟩) | (_, ⟨_, _, .query _⟩) => isTrue trivial

/-- Rebalancing ends whatever the groups and the shards are. -/
theorem adjustShards_isSome (o : Orders) (groups : GoMap Gid (List String))
    (shards : Fin NShards → Gid) :
    (adjustShards o groups shards).isSome := by
  by_cases hne : groups = ∅
  · rw [hne, adjustShards_empty]
    rfl
  · obtain ⟨t, ht, -⟩ := adjustShards_spec o shards hne
    rw [ht]
    rfl

/-- `Query` does not panic if its number is at least -1. -/
theorem processQuery_isSome (hlast : sc.configs.getLast? = some last) {num : Int}
    (hnum : -1 ≤ num) :
    (sc.processQuery num).isSome := by
  unfold ShardCtrler.processQuery
  split
  · rw [hlast]
    rfl
  · rw [if_neg (by omega), List.getElem?_eq_getElem (by omega)]
    rfl

/-- An operation that is in range can be executed. -/
theorem execute_isSome (o : Orders) {op : Op} (hlast : sc.configs.getLast? = some last)
    (hop : op.InRange) : (sc.execute o op).isSome := by
  unfold ShardCtrler.execute
  split
  · rfl
  unfold Op.InRange at hop
  split
  · next servers hreq =>
    obtain ⟨groups, -, hjoin⟩ := processJoin_eq o hlast servers
    obtain ⟨t, ht⟩ := Option.isSome_iff_exists.1 (adjustShards_isSome o groups last.shards)
    rw [hjoin, ht]
    rfl
  · next gids hreq =>
    obtain ⟨groups, -, hleave⟩ := processLeave_eq o hlast gids
    obtain ⟨t, ht⟩ := Option.isSome_iff_exists.1
      (adjustShards_isSome o groups (released gids last.shards))
    rw [hleave, ht]
    rfl
  · next shard gid hreq =>
    rw [hreq] at hop
    rw [processMove_eq o hlast gid hop]
    rfl
  · next num hreq =>
    rw [hreq] at hop
    obtain ⟨config, hquery⟩ := Option.isSome_iff_exists.1 (processQuery_isSome hlast hop)
    rw [hquery]
    rfl

/-- The configs of a history are valid, and group 0 is in none of them. -/
def AllValid (sc : ShardCtrler) : Prop := ∀ config ∈ sc.configs, config.Valid ∧ 0 ∉ config.groups

/-- A valid config is added to valid ones. -/
theorem AllValid.addConfig (h : AllValid sc) {groups : GoMap Gid (List String)}
    {shards : Fin NShards → Gid}
    (hvalid : Config.Valid ⟨last.num + 1, shards, groups⟩) (hzero : 0 ∉ groups) :
    AllValid (sc.addConfig last groups shards) := by
  intro config hconfig
  rcases List.mem_append.1 hconfig with hold | hnew
  · exact h config hold
  · rw [List.mem_singleton.1 hnew]
    exact ⟨hvalid, hzero⟩

/-- An operation keeps all configs valid, if a `Move` goes to one of the groups. -/
theorem AllValid.execute {o : Orders} {op : Op} {p : ShardCtrler × Config} (h : AllValid sc)
    (hpos : op.PositiveGids) (hmoves : MovesToGroups sc (o, op)) (hex : sc.execute o op = some p) :
    AllValid p.1 := by
  rcases execute_cases hex with ⟨-, heq⟩ | ⟨hnew, sc', heq, ⟨-, rfl⟩ | hproc⟩
  · rw [heq]
    exact h
  · unfold AllValid
    rw [heq, updateLastRequest_configs]
    exact h
  have hsc' : AllValid sc' := by
    obtain ⟨last, -, hlast, -, -⟩ := hproc.appends
    obtain ⟨hvalid, hzero⟩ := h last (List.mem_of_getLast? hlast)
    generalize hop : op.request = r at hproc
    cases hproc with
    | @join servers _ hsc' =>
      obtain ⟨groups, hgroups, hjoin⟩ := processJoin_eq o hlast servers
      rw [hjoin] at hsc'
      obtain ⟨t, ht, rfl⟩ := Option.map_eq_some_iff.1 hsc'
      have hzero' : 0 ∉ groups := by
        intro h0
        rcases (hgroups 0).1 h0 with h0 | h0
        · exact hzero h0
        · unfold Op.PositiveGids at hpos
          rw [hop] at hpos
          exact absurd (hpos 0 (Std.ExtTreeMap.mem_keys.2 h0)) (lt_irrefl 0)
      refine h.addConfig (adjustShards_valid ht hzero' (fun i => ?_) _) hzero'
      exact (hvalid.zero_or_mem i).imp_right fun hi => (hgroups _).2 (.inl hi)
    | @leave gids _ hsc' =>
      obtain ⟨groups, hgroups, hleave⟩ := processLeave_eq o hlast gids
      rw [hleave] at hsc'
      obtain ⟨t, ht, rfl⟩ := Option.map_eq_some_iff.1 hsc'
      have hzero' : 0 ∉ groups := fun h0 => hzero ((hgroups 0).1 h0).1
      exact h.addConfig
        (adjustShards_valid ht hzero' (hvalid.released_zero_or_mem hgroups) _) hzero'
    | @move shard gid _ hsc' =>
      have hrange : 0 ≤ shard ∧ shard.toNat < NShards := processMove_inRange hsc'
      have hgid : gid ∈ last.groups := by
        unfold MovesToGroups at hmoves
        rw [hop] at hmoves
        exact hmoves hnew last hlast
      rw [processMove_eq o hlast gid hrange] at hsc'
      cases hsc'
      refine h.addConfig ⟨fun _ i => ?_, fun hempty => absurd hempty (ne_empty_of_mem hgid)⟩ hzero
      change Function.update last.shards _ gid i ∈ last.groups
      rw [Function.update_apply]
      split
      · exact hgid
      · exact hvalid.1 (ne_empty_of_mem hgid) i
  unfold AllValid
  rw [heq, updateLastRequest_configs]
  exact hsc'

/-- **Configs are valid** as long as shards are only moved to groups of the latest config. -/
theorem configs_valid {sc : ShardCtrler}
    (h : Reach ctrlerStep (fun sc e => Administrative sc e ∧ MovesToGroups sc e) .init sc) :
    (∀ config ∈ sc.configs, config.Valid) ∧
      ∀ e, Administrative sc e → (ctrlerStep sc e).isSome := by
  have hinv : AllValid sc ∧ History sc := by
    refine h.invariant (P := fun sc => AllValid sc ∧ History sc) ⟨?_, history_init⟩ ?_
    · intro config hconfig
      rw [List.mem_singleton.1 hconfig]
      exact ⟨⟨fun hne => absurd rfl hne, fun _ _ => rfl⟩, Std.ExtTreeMap.not_mem_empty⟩
    · rintro sc sc' ⟨o, op⟩ ⟨hvalid, hhist⟩ ⟨⟨-, hpos⟩, hmoves⟩ hstep
      obtain ⟨p, hp, rfl⟩ := Option.map_eq_some_iff.1 hstep
      exact ⟨hvalid.execute hpos hmoves hp, hhist.execute hp⟩
  obtain ⟨hvalid, hhist⟩ := hinv
  refine ⟨fun config hconfig => (hvalid config hconfig).1, fun e he => ?_⟩
  obtain ⟨last, hlast⟩ := hhist.exists_last
  exact (Option.isSome_map ..).trans (execute_isSome e.1 hlast he.1)

/-- Group 1 joins and gets all shards, and shard 0 is moved to group `gid`. -/
def joinAndMove (gid : Gid) : List (Orders × Op) :=
  [(.increasing, ⟨1, 1, .join (Std.ExtTreeMap.insert ∅ 1 ["a"])⟩),
    (.increasing, ⟨1, 2, .move 0 gid⟩)]

/-- A group that has not joined is given a shard. -/
theorem moveAway_invalid : ∃ sc, Reach ctrlerStep Administrative .init sc ∧
    ∃ config ∈ sc.configs, ¬ config.Valid :=
  ⟨_, reach_reached (joinAndMove 2), by decide +kernel⟩

/-- The shard is moved to the group that has it. -/
theorem configs_valid_move :
    ∃ sc, Reach ctrlerStep (fun sc e => Administrative sc e ∧ MovesToGroups sc e) .init sc ∧
      sc.configs.length = 3 ∧ ((∀ config ∈ sc.configs, config.Valid) ∧
        ∀ e, Administrative sc e → (ctrlerStep sc e).isSome) :=
  ⟨_, reach_reached (joinAndMove 1),
    by decide +kernel, configs_valid (reach_reached (joinAndMove 1))⟩

end DistLabs.Shardctrler
