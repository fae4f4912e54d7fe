import DistLabs.Lib.Requests
import DistLabs.Shardkv.Server

/-!
# What a command does to a group

`applied` says it for every command of `execute`: the next config reassigns all shards, and any
other command keeps the configs and changes each shard as `ShardStep` allows. Along a log config
numbers only grow, and while the number stays the same a shard goes from `pulling` over `gcing` to
`serving`, or from `bePulling` to `serving` (`Later`). Of the shards it is not in charge of a group
writes none, so what is to be pulled stays as it was when the config came (`applied_frozen`).
-/

namespace DistLabs.Shardkv

open Lib Shardctrler

/-- Shard `i` after a command that does not change the config. -/
inductive ShardStep (kv : ShardKV) (i : Fin NShards) : Command → Shard → Prop
  | same {command : Command} : ShardStep kv i command (kv.shards i)
  | written {op : GetPutAppendArgs} {shard : Shard} (hi : i = key2shard op.key)
      (hserves : kv.checkShardAndState i) (hstate : shard.state = (kv.shards i).state) :
      ShardStep kv i (.getPutAppend op) shard
  | inserted {response : PullShardReply} {shard : Shard}
      (hnum : response.configNum = kv.currentConfig.num) (hi : response.shards[i]? = some shard)
      (hstate : (kv.shards i).state = .pulling) :
      ShardStep kv i (.insertShard response) ⟨(kv.shards i).shardKVDB ∪ shard.shardKVDB, .gcing⟩
  | deleted {args : RemoveShardArgs} (hnum : args.configNum = kv.currentConfig.num)
      (hi : i ∈ args.shardIds) (hstate : (kv.shards i).state = .bePulling) :
      ShardStep kv i (.deleteShard args) (.make .serving)
  | adjusted {args : AdjustShardArgs} (hnum : args.configNum = kv.currentConfig.num)
      (hi : i ∈ args.shardIds) :
      ShardStep kv i (.adjustShardState args) { kv.shards i with state := .serving }

/-- What a command does: it is the next config, or it keeps the configs. -/
inductive Applied (kv : ShardKV) : Command → ShardKV → Prop
  | config {newConfig : Config} {kv' : ShardKV} (hnum : newConfig.num = kv.currentConfig.num + 1)
      (hgid : kv'.gid = kv.gid) (hconfig : kv'.currentConfig = newConfig)
      (hlast : kv'.lastConfig = kv.currentConfig)
      (hshards : ∀ i, kv'.shards i =
        (kv.shards i).reassign kv.gid (kv.currentConfig.shards i) (newConfig.shards i)) :
      Applied kv (.addConfig newConfig) kv'
  | shards {command : Command} {kv' : ShardKV} (hgid : kv'.gid = kv.gid)
      (hconfig : kv'.currentConfig = kv.currentConfig) (hlast : kv'.lastConfig = kv.lastConfig)
      (hshards : ∀ i, ShardStep kv i command (kv'.shards i)) : Applied kv command kv'

section
variable {kv kv' : ShardKV} {i : Fin NShards}

theorem Applied.refl (kv : ShardKV) (command : Command) : Applied kv command kv :=
  .shards rfl rfl rfl fun _ => .same

/-- `updateLastRequest` enters the request into the table. -/
theorem updateLastRequest_eq (kv : ShardKV) (op : GetPutAppendArgs) : kv.updateLastRequest op =
    { kv with lastRequestMap := enterRequest kv.lastRequestMap op.clientId op.requestId } := by
  unfold ShardKV.updateLastRequest enterRequest
  cases kv.lastRequestMap[op.clientId]? with
  | none => rfl
  | some last =>
    dsimp only
    split <;> rfl

/-- A client command writes the one shard of its key, and only if the group is in charge of it. -/
theorem applied_getPutAppend (kv : ShardKV) (op : GetPutAppendArgs) :
    Applied kv (.getPutAppend op) (kv.processGetPutAppend op).1 := by
  unfold ShardKV.processGetPutAppend
  dsimp only
  split
  · exact .refl kv _
  next hserves =>
  rw [not_not] at hserves
  have hset : ∀ s : Shard, s.state = (kv.shards (key2shard op.key)).state →
      Applied kv (.getPutAppend op) ((kv.setShard (key2shard op.key) s).updateLastRequest op) := by
    intro s hs
    rw [updateLastRequest_eq]
    refine .shards rfl rfl rfl fun i => ?_
    show ShardStep kv i _ (Function.update kv.shards (key2shard op.key) s i)
    by_cases hi : i = key2shard op.key
    · subst hi
      rw [Function.update_self]
      exact .written rfl hserves hs
    · rw [Function.update_of_ne hi]
      exact .same
  split
  · split
    · rw [updateLastRequest_eq]
      exact .shards rfl rfl rfl fun _ => .same
    · exact hset _ rfl
    · exact hset _ rfl
  · exact .refl kv _

/-- `processAddConfig` goes to the next config, or does nothing. -/
theorem applied_addConfig (kv : ShardKV) (newConfig : Config) :
    Applied kv (.addConfig newConfig) (kv.processAddConfig newConfig).1 := by
  unfold ShardKV.processAddConfig
  split
  · next hnum => exact .config hnum rfl rfl rfl fun _ => rfl
  · exact .refl kv _

/-- Only shards that are being pulled are installed. -/
theorem applied_insertShard (kv : ShardKV) (response : PullShardReply) :
    Applied kv (.insertShard response) (kv.processInsertShard response).1 := by
  unfold ShardKV.processInsertShard
  split
  swap
  · exact .refl kv _
  next hnum =>
  refine .shards rfl rfl rfl fun i => ?_
  dsimp only
  split
  · next shard hi =>
    unfold Shard.install
    split
    · next hstate => exact .inserted hnum hi hstate
    · exact .same
  · exact .same

/-- `processDeleteShard` deletes shards that were pulled. -/
theorem applied_deleteShard (kv : ShardKV) (args : RemoveShardArgs) :
    Applied kv (.deleteShard args) (kv.processDeleteShard args).1 := by
  unfold ShardKV.processDeleteShard
  split
  swap
  · exact .refl kv _
  next hnum =>
  refine .shards rfl rfl rfl fun i => ?_
  dsimp only
  split
  · next h => exact .deleted hnum h.1 h.2
  · exact .same

/-- `processAdjustGCingShard` makes shards serve. -/
theorem applied_adjustShardState (kv : ShardKV) (args : AdjustShardArgs) :
    Applied kv (.adjustShardState args) (kv.processAdjustGCingShard args).1 := by
  unfold ShardKV.processAdjustGCingShard
  split
  swap
  · exact .refl kv _
  next hnum =>
  refine .shards rfl rfl rfl fun i => ?_
  dsimp only
  split
  · next hi => exact .adjusted hnum hi
  · exact .same

/-- What `execute` does. -/
theorem applied (kv : ShardKV) (command : Command) : Applied kv command (kv.apply command) := by
  cases command with
  | getPutAppend op => exact applied_getPutAppend kv op
  | addConfig newConfig => exact applied_addConfig kv newConfig
  | insertShard response => exact applied_insertShard kv response
  | deleteShard args => exact applied_deleteShard kv args
  | adjustShardState args => exact applied_adjustShardState kv args

/-! ## A new config -/

/-- What a new config does to a shard: it is pulled, or kept for pulling, or left as it is. -/
theorem reassign_eq (s : Shard) (gid old new : Gid) :
    s.reassign gid old new =
      if new = gid ∧ old ≠ gid ∧ old ≠ 0 then { s with state := .pulling }
      else if old = gid ∧ new ≠ gid ∧ new ≠ 0 then { s with state := .bePulling }
      else s := by
  unfold Shard.reassign
  by_cases hnew : new = gid
  · subst hnew
    by_cases hold : old = new
    · simp [hold]
    · simp [hold]
  · by_cases hold : old = gid
    · subst hold
      simp [hnew]
    · simp [hnew, hold]

/-- A new config does not touch the data of a shard. -/
theorem reassign_shardKVDB (s : Shard) (gid old new : Gid) :
    (s.reassign gid old new).shardKVDB = s.shardKVDB := by
  rw [reassign_eq]
  split
  · rfl
  · split <;> rfl

section
variable {s : Shard} {gid old new : Gid}

/-- A shard that was served is pulled only by its new owner, from its old one. -/
theorem reassign_pulling (hs : s.state = .serving)
    (h : (s.reassign gid old new).state = .pulling) : new = gid ∧ old ≠ gid ∧ old ≠ 0 := by
  rw [reassign_eq] at h
  split at h
  · next hc => exact hc
  · split at h
    · cases h
    · rw [hs] at h
      cases h

/-- A shard that was served is given away only by its old owner, to a new one. -/
theorem reassign_bePulling (hs : s.state = .serving)
    (h : (s.reassign gid old new).state = .bePulling) : old = gid ∧ new ≠ gid ∧ new ≠ 0 := by
  rw [reassign_eq] at h
  split at h
  · cases h
  · split at h
    · next hc => exact hc
    · rw [hs] at h
      cases h

/-- A new config puts no shard that was served in state `gcing`. -/
theorem reassign_gcing (hs : s.state = .serving) : (s.reassign gid old new).state ≠ .gcing := by
  rw [reassign_eq]
  split
  · exact fun h => by cases h
  · split
    · exact fun h => by cases h
    · rw [hs]
      exact fun h => by cases h

/-- A shard that passes from one group to another is pulled by the new one. -/
theorem reassign_of_pulling (hne : old ≠ gid) (h0 : old ≠ 0) :
    (s.reassign gid old gid).state = .pulling := by
  rw [reassign_eq, if_pos ⟨rfl, hne, h0⟩]

/-- A shard that passes from one group to another is kept for pulling by the old one. -/
theorem reassign_of_bePulling (hne : new ≠ gid) (h0 : new ≠ 0) :
    (s.reassign gid gid new).state = .bePulling := by
  rw [reassign_eq, if_neg fun hc => hne hc.1, if_pos ⟨rfl, hne, h0⟩]

/-- The owner can serve a shard at once only if it owned it before, or nobody did. -/
theorem reassign_served (h : (s.reassign gid old gid).state ≠ .pulling) : old = gid ∨ old = 0 := by
  by_contra hno
  rw [not_or] at hno
  exact h (reassign_of_pulling hno.1 hno.2)

end

/-! ## Replicas that are further -/

/-- How the state of a shard changes under one config. -/
def ShardState.Evolves (a b : ShardState) : Prop :=
  b = a ∨ b = .serving ∨ a = .pulling ∧ b = .gcing

theorem ShardState.Evolves.trans {a b c : ShardState} (h : a.Evolves b) (h' : b.Evolves c) :
    a.Evolves c := by
  rcases h' with rfl | rfl | ⟨rfl, rfl⟩
  · exact h
  · exact .inr (.inl rfl)
  · rcases h with rfl | h | h
    · exact .inr (.inr ⟨rfl, rfl⟩)
    · cases h
    · cases h.2

/-- Only served shards stay as they are for good. -/
theorem ShardState.Evolves.serving {b : ShardState} (h : ShardState.serving.Evolves b) :
    b = .serving := by
  rcases h with h | h | ⟨h, -⟩
  · exact h
  · exact h
  · cases h

/-- A shard that is to be pulled was so before. -/
theorem ShardState.Evolves.of_pulling {a : ShardState} (h : a.Evolves .pulling) :
    a = .pulling := by
  rcases h with h | h | ⟨-, h⟩
  · exact h.symm
  · cases h
  · cases h

/-- A shard whose old copy is to be deleted was to be pulled before, or is as it was. -/
theorem ShardState.Evolves.of_gcing {a : ShardState} (h : a.Evolves .gcing) :
    a = .pulling ∨ a = .gcing := by
  rcases h with h | h | ⟨h, -⟩
  · exact .inr h.symm
  · cases h
  · exact .inl h

/-- A shard that others are to pull was so before. -/
theorem ShardState.Evolves.of_bePulling {a : ShardState} (h : a.Evolves .bePulling) :
    a = .bePulling := by
  rcases h with h | h | ⟨-, h⟩
  · exact h.symm
  · cases h
  · cases h

/-- A command makes the state of a shard go on. -/
theorem ShardStep.evolves {command : Command} {shard : Shard}
    (h : ShardStep kv i command shard) : (kv.shards i).state.Evolves shard.state := by
  cases h with
  | same => exact .inl rfl
  | written _ _ hstate => exact .inl hstate
  | inserted _ _ hstate => exact .inr (.inr ⟨hstate, rfl⟩)
  | deleted => exact .inr (.inl rfl)
  | adjusted => exact .inr (.inl rfl)

/-- `kv'` is a state of the same group, after more commands. -/
structure Later (kv kv' : ShardKV) : Prop where
  gid : kv'.gid = kv.gid
  num_le : kv.currentConfig.num ≤ kv'.currentConfig.num
  evolves : kv'.currentConfig.num = kv.currentConfig.num →
    ∀ i, (kv.shards i).state.Evolves (kv'.shards i).state

theorem Later.refl (kv : ShardKV) : Later kv kv := ⟨rfl, le_rfl, fun _ _ => .inl rfl⟩

theorem Later.trans {kv'' : ShardKV} (h : Later kv kv') (h' : Later kv' kv'') :
    Later kv kv'' := by
  refine ⟨h'.gid.trans h.gid, h.num_le.trans h'.num_le, fun hnum i => ?_⟩
  have hle := h.num_le
  have hle' := h'.num_le
  exact (h.evolves (by omega) i).trans (h'.evolves (by omega) i)

/-- One more command. -/
theorem later_apply (kv : ShardKV) (command : Command) : Later kv (kv.apply command) := by
  cases applied kv command with
  | config hnum hgid hconfig =>
    refine ⟨hgid, ?_, fun h => ?_⟩
    · rw [hconfig]
      omega
    · rw [hconfig] at h
      omega
  | shards hgid hconfig _ hshards =>
    exact ⟨hgid, by rw [hconfig], fun _ i => (hshards i).evolves⟩

/-- While the config stays, a group without shards on their way stays so. -/
theorem Later.idle (h : Later kv kv') (hnum : kv'.currentConfig.num = kv.currentConfig.num)
    (hidle : ¬ kv.isProcessShardCommand) : ¬ kv'.isProcessShardCommand := by
  rintro ⟨i, hi⟩
  have hs : (kv.shards i).state = .serving := by
    by_contra hne
    exact hidle ⟨i, hne⟩
  have hev := h.evolves hnum i
  rw [hs] at hev
  exact hi hev.serving

/-! ## What stays -/

/-- A shard that is not served by the group and stays in its state has the same data afterwards, as
long as the config stays. -/
theorem applied_frozen {command : Command} (h : Applied kv command kv')
    (hnum : kv'.currentConfig.num = kv.currentConfig.num) (hno : ¬ kv.checkShardAndState i)
    (hstate : (kv'.shards i).state = (kv.shards i).state) :
    (kv'.shards i).shardKVDB = (kv.shards i).shardKVDB := by
  cases h with
  | config hnum' _ hconfig =>
    rw [hconfig] at hnum
    omega
  | shards _ _ _ hshards =>
    have hi := hshards i
    generalize kv'.shards i = shard at hi hstate ⊢
    cases hi with
    | same => rfl
    | written _ hserves => exact absurd hserves hno
    | inserted _ _ hpull =>
      rw [hpull] at hstate
      cases hstate
    | deleted _ _ hpull =>
      rw [hpull] at hstate
      cases hstate
    | adjusted => rfl

/-- Entries of the table of requests are not lost, and values only grow. -/
def RequestsLe (m m' : GoMap Int Int) : Prop :=
  ∀ clientId : Int, ∀ r ∈ m[clientId]?, ∃ r' ∈ m'[clientId]?, r ≤ r'

theorem RequestsLe.refl (m : GoMap Int Int) : RequestsLe m m := fun _ r hr => ⟨r, hr, le_rfl⟩

theorem RequestsLe.trans {m m' m'' : GoMap Int Int} (h : RequestsLe m m')
    (h' : RequestsLe m' m'') : RequestsLe m m'' := by
  intro clientId r hr
  obtain ⟨r', hr', hle⟩ := h clientId r hr
  obtain ⟨r'', hr'', hle'⟩ := h' clientId r' hr'
  exact ⟨r'', hr'', hle.trans hle'⟩

/-- A client command that is not refused or skipped is entered in the table of requests. -/
theorem processGetPutAppend_requests (kv : ShardKV) (op : GetPutAppendArgs) :
    (kv.processGetPutAppend op).1.lastRequestMap =
      if kv.checkShardAndState (key2shard op.key) ∧
          (op.opType = .get ∨ ¬ kv.isInvalidRequest op.clientId op.requestId) then
        enterRequest kv.lastRequestMap op.clientId op.requestId
      else kv.lastRequestMap := by
  unfold ShardKV.processGetPutAppend
  dsimp only
  split
  · next hno => rw [if_neg fun h => hno h.1]
  next hserves =>
  split
  · next hfresh =>
    rw [if_pos ⟨not_not.1 hserves, hfresh⟩]
    split <;> rw [updateLastRequest_eq] <;> rfl
  · next hskip => rw [if_neg fun h => hskip h.2]

/-- The loop of `processInsertShard` that merges two tables. -/
def mergeRequests (m : GoMap Int Int) (l : List (Int × Int)) : GoMap Int Int :=
  l.foldl (fun m e => m.insert e.1 (max e.2 (m[e.1]?.getD 0))) m

/-- Merging into a table loses no request of it. -/
theorem requestsLe_mergeRequests (l : List (Int × Int)) (m : GoMap Int Int) :
    RequestsLe m (mergeRequests m l) := by
  induction l generalizing m with
  | nil => exact .refl m
  | cons e l ih =>
    refine RequestsLe.trans (fun c r hr => le_insertRequest (fun last hlast => ?_) hr) (ih _)
    rw [Option.mem_def.1 hlast]
    exact le_max_right ..

/-- The merged table has what either table had. -/
theorem mem_mergeRequests {l : List (Int × Int)} {e : Int × Int} (he : e ∈ l) (m : GoMap Int Int) :
    ∃ r ∈ (mergeRequests m l)[e.1]?, e.2 ≤ r := by
  induction l generalizing m with
  | nil => cases he
  | cons e' l ih =>
    rcases List.mem_cons.1 he with rfl | he
    · have hnew : max e.2 (m[e.1]?.getD 0) ∈ (m.insert e.1 (max e.2 (m[e.1]?.getD 0)))[e.1]? := by
        rw [Std.ExtTreeMap.getElem?_insert_self]
        rfl
      obtain ⟨r, hr, hle⟩ := requestsLe_mergeRequests l _ e.1 _ hnew
      exact ⟨r, hr, (le_max_left ..).trans hle⟩
    · exact ih he _

/-- A group that inserts shards takes over the requests that came with them. -/
theorem insertShard_requests {response : PullShardReply}
    (hnum : response.configNum = kv.currentConfig.num) :
    RequestsLe response.lastRequestMap (kv.processInsertShard response).1.lastRequestMap := by
  unfold ShardKV.processInsertShard
  rw [if_pos hnum]
  intro clientId r hr
  exact mem_mergeRequests (e := (clientId, r))
    (Std.ExtTreeMap.mem_toList_iff_getElem?_eq_some.2 hr) _

/-- Along a log the table only grows. -/
theorem apply_requests (kv : ShardKV) (command : Command) :
    RequestsLe kv.lastRequestMap (kv.apply command).lastRequestMap := by
  cases command with
  | getPutAppend op =>
    show RequestsLe _ (kv.processGetPutAppend op).1.lastRequestMap
    rw [processGetPutAppend_requests]
    split
    · exact fun c r hr => enterRequest_le hr
    · exact .refl _
  | addConfig newConfig =>
    show RequestsLe _ (kv.processAddConfig newConfig).1.lastRequestMap
    unfold ShardKV.processAddConfig
    split <;> exact .refl _
  | insertShard response =>
    show RequestsLe _ (kv.processInsertShard response).1.lastRequestMap
    unfold ShardKV.processInsertShard
    split
    · exact requestsLe_mergeRequests _ _
    · exact .refl _
  | deleteShard args =>
    show RequestsLe _ (kv.processDeleteShard args).1.lastRequestMap
    unfold ShardKV.processDeleteShard
    split <;> exact .refl _
  | adjustShardState args =>
    show RequestsLe _ (kv.processAdjustGCingShard args).1.lastRequestMap
    unfold ShardKV.processAdjustGCingShard
    split <;> exact .refl _

/-! ## What the monitors and handlers read -/

/-- The shards that `getShardIdsWithSpecifiedState` finds for a group are in that state and were
the group's before. -/
def ShardKV.Listed (kv : ShardKV) (state : ShardState) (tmp : GoMap Gid (List (Fin NShards))) :
    Prop :=
  ∀ gid : Gid, ∀ ids ∈ tmp[gid]?, ∀ i ∈ ids, (kv.shards i).state = state ∧
    kv.lastConfig.shards i = gid

/-- One more shard is listed under its old group. -/
theorem listed_insert {state : ShardState} {tmp : GoMap Gid (List (Fin NShards))}
    (h : kv.Listed state tmp) (hstate : (kv.shards i).state = state) :
    kv.Listed state (tmp.insert (kv.lastConfig.shards i)
      (tmp[kv.lastConfig.shards i]?.getD [] ++ [i])) := by
  intro gid ids hids i' hi'
  rw [Option.mem_def, GoMap.getElem?_insert] at hids
  split at hids
  swap
  · exact h gid ids hids i' hi'
  next hgid =>
  subst hgid
  cases hids
  rcases List.mem_append.1 hi' with hold | hnew
  · cases htmp : tmp[kv.lastConfig.shards i]? with
    | none =>
      rw [htmp] at hold
      cases hold
    | some ids =>
      rw [htmp] at hold
      exact h _ ids htmp i' hold
  · obtain rfl := List.mem_singleton.1 hnew
    exact ⟨hstate, rfl⟩

/-- The loop lists shards in the given state under their old groups. -/
theorem listed_getShardIdsWithSpecifiedState (kv : ShardKV) (state : ShardState) :
    kv.Listed state (kv.getShardIdsWithSpecifiedState state) := by
  unfold ShardKV.getShardIdsWithSpecifiedState
  refine List.foldlRecOn (motive := kv.Listed state) _ _
    (fun gid ids hids => ?_) fun tmp htmp i _ => ?_
  · rw [Std.ExtTreeMap.getElem?_empty] at hids
    cases hids
  · dsimp only
    split
    · next hstate => exact listed_insert htmp hstate
    · exact htmp

/-- The shards that are to be asked of a group. -/
theorem shardIdsFor_spec {state : ShardState} {oldGid : Gid} {shardIds : List (Fin NShards)}
    (h : kv.shardIdsFor state oldGid = some shardIds) :
    ∀ i ∈ shardIds, (kv.shards i).state = state ∧ kv.lastConfig.shards i = oldGid := by
  unfold ShardKV.shardIdsFor at h
  simp only [Option.bind_eq_bind, Option.bind_eq_some_iff] at h
  obtain ⟨ids, hids, servers, -, h⟩ := h
  split at h
  · cases h
  · cases h
    exact listed_getShardIdsWithSpecifiedState kv state oldGid _ hids

/-- What `GetShards` hands out: copies of shards it was asked for and that are to be pulled, under
the config it was asked about, together with its table of requests. -/
structure HandedOut (kv : ShardKV) (args : PullShardArgs) (reply : PullShardReply) : Prop where
  num : args.configNum = kv.currentConfig.num
  shards : ∀ i, ∀ shard ∈ reply.shards[i]?, i ∈ args.shardIds ∧ (kv.shards i).state = .bePulling ∧
    shard.shardKVDB = (kv.shards i).shardKVDB
  requests : reply.lastRequestMap = kv.lastRequestMap

/-- `GetShards` that answers OK hands out shards. -/
theorem getShards_ok {args : PullShardArgs} (hok : (kv.getShards args).err = .ok) :
    HandedOut kv args (kv.getShards args) := by
  unfold ShardKV.getShards at hok ⊢
  split
  swap
  · next hnum =>
    rw [if_neg hnum] at hok
    cases hok
  next hnum =>
  refine ⟨hnum, ?_, rfl⟩
  dsimp only
  refine List.foldlRecOn (motive := fun shards : GoMap (Fin NShards) Shard => ∀ i,
    ∀ shard ∈ shards[i]?, i ∈ args.shardIds ∧ (kv.shards i).state = .bePulling ∧
      shard.shardKVDB = (kv.shards i).shardKVDB) _ _ (fun i shard hi => ?_)
    fun shards hs i hmem i' shard hi' => ?_
  · rw [Std.ExtTreeMap.getElem?_empty] at hi
    cases hi
  · split at hi'
    swap
    · exact hs i' shard hi'
    next hstate =>
    rw [Option.mem_def, GoMap.getElem?_insert] at hi'
    split at hi'
    · next heq =>
      subst heq
      cases hi'
      exact ⟨hmem, hstate, rfl⟩
    · exact hs i' shard hi'

end

end DistLabs.Shardkv
