import DistLabs.Shardkv.Clerks
import DistLabs.Shardkv.Ownership

/-!
# Where the data of a shard is

All writes that take effect, in the order in which they do, make one store (`storeOf`). At any time
the part of it that is in a shard is with one group (`Held`): the group that serves the shard, or
the one that has given it away, as long as the new owner has not installed it. For every command
this is one case of `Held.commit`; that nobody else writes meanwhile is `Custody`.

It needs that a shard that has an owner keeps having one (`KeepsOwners`): nobody hands a shard over
that was given to the invalid group 0.
-/

namespace DistLabs.Shardkv

open Lib Shardctrler

/-! ## The store -/

/-- What a client sees: a key that was never written reads as the empty string. -/
abbrev Store := GoString → GoString

/-- The effect of an operation. -/
def Store.write (store : Store) (op : GetPutAppendArgs) : Store :=
  match op.opType with
  | .get => store
  | .put => Function.update store op.key op.value
  | .append => Function.update store op.key (store op.key ++ op.value)

/-- The store after a sequence of writes. -/
def storeOf (writes : List GetPutAppendArgs) : Store := writes.foldl Store.write fun _ => []

/-- The write that takes effect when a command is applied, if there is one. -/
def ShardKV.effect (kv : ShardKV) : Command → Option GetPutAppendArgs
  | .getPutAppend op =>
    if op.opType ≠ .get ∧ kv.checkShardAndState (key2shard op.key) ∧
        ¬ kv.isInvalidRequest op.clientId op.requestId then some op
    else none
  | _ => none

section
variable {kv kv' : ShardKV} {i : Fin NShards} {op : GetPutAppendArgs} {command : Command}
  {writes : List GetPutAppendArgs} {key : GoString}

theorem storeOf_concat (writes : List GetPutAppendArgs) (op : GetPutAppendArgs) :
    storeOf (writes ++ [op]) = (storeOf writes).write op := by
  rw [storeOf, List.foldl_append]
  rfl

/-- A write changes its key only. -/
theorem write_of_ne {store : Store} (h : key ≠ op.key) : store.write op key = store key := by
  cases hop : op.opType <;> simp only [Store.write, hop, Function.update_of_ne h]

/-- Nothing has been written to a shard. -/
theorem storeOf_eq_nil (h : ∀ op ∈ writes, key2shard op.key ≠ key2shard key) :
    storeOf writes key = [] := by
  induction writes using List.reverseRecOn with
  | nil => rfl
  | append_singleton writes op ih =>
    have hne : key ≠ op.key := by
      rintro rfl
      exact h op (List.mem_append_right _ (List.mem_singleton_self op)) rfl
    rw [storeOf_concat, write_of_ne hne]
    exact ih fun op' hop' => h op' (List.mem_append_left _ hop')

/-- What it takes for a command to have an effect. -/
theorem effect_eq_some (h : kv.effect command = some op) :
    command = .getPutAppend op ∧ op.opType ≠ .get ∧ kv.checkShardAndState (key2shard op.key) ∧
      ¬ kv.isInvalidRequest op.clientId op.requestId := by
  cases command with
  | getPutAppend op' =>
    simp only [ShardKV.effect, Option.ite_none_right_eq_some] at h
    obtain ⟨heffect, heq⟩ := h
    cases heq
    exact ⟨rfl, heffect⟩
  | addConfig | insertShard | deleteShard | adjustShardState => cases h

/-- What a shard holds after a `Put`. -/
theorem get_put (s : Shard) (k v : GoString) : (s.put k v).get = Function.update s.get k v := by
  funext key
  simp only [Shard.get, Shard.put, GoMap.getElem?_insert, Function.update_apply]
  split <;> rfl

/-- What a shard holds after an `Append`. -/
theorem get_append (s : Shard) (k v : GoString) :
    (s.append k v).get = Function.update s.get k (s.get k ++ v) := by
  funext key
  simp only [Shard.get, Shard.append, GoMap.getElem?_insert, Function.update_apply]
  split <;> rfl

/-- A write changes its shard as it changes the store. -/
theorem apply_effect (h : kv.effect (.getPutAppend op) = some op) :
    ((kv.apply (.getPutAppend op)).shards (key2shard op.key)).get =
      Store.write (kv.shards (key2shard op.key)).get op := by
  obtain ⟨-, hwrite, hserves, hfresh⟩ := effect_eq_some h
  change ((kv.processGetPutAppend op).1.shards (key2shard op.key)).get = _
  simp only [ShardKV.processGetPutAppend, hserves, hfresh, not_true_eq_false,
    not_false_eq_true, or_true, if_true, if_false]
  cases hop : op.opType with
  | get => exact absurd hop hwrite
  | put =>
    simp only [updateLastRequest_eq, ShardKV.setShard, Function.update_self, Store.write, hop]
    exact get_put ..
  | append =>
    simp only [updateLastRequest_eq, ShardKV.setShard, Function.update_self, Store.write, hop]
    exact get_append ..

/-- Other shards stay, and all of them if there is no effect. -/
theorem apply_shards_of_ne
    (h : ∀ op', kv.effect (.getPutAppend op) = some op' → i ≠ key2shard op.key) :
    (kv.apply (.getPutAppend op)).shards i = kv.shards i := by
  change (kv.processGetPutAppend op).1.shards i = _
  unfold ShardKV.processGetPutAppend
  dsimp only
  split
  · rfl
  next hserves =>
  rw [not_not] at hserves
  split
  swap
  · rfl
  next hfresh =>
  split
  · rw [updateLastRequest_eq]
  all_goals
    next hop =>
    have hwrite : op.opType ≠ .get := by
      rw [hop]
      decide
    have hne := h op (if_pos ⟨hwrite, hserves, hfresh.resolve_left hwrite⟩)
    rw [updateLastRequest_eq]
    exact Function.update_of_ne hne ..

/-! ## A group that has the data -/

/-- A group has all writes to a shard: it has their effect, and their numbers. -/
structure HasWrites (kv : ShardKV) (i : Fin NShards) (writes : List GetPutAppendArgs) : Prop where
  data : ∀ key, key2shard key = i → (kv.shards i).get key = storeOf writes key
  known : ∀ op ∈ writes, key2shard op.key = i → kv.isInvalidRequest op.clientId op.requestId

/-- A request that is known stays known. -/
theorem isInvalidRequest_mono (h : RequestsLe kv.lastRequestMap kv'.lastRequestMap) {c r : Int}
    (hold : kv.isInvalidRequest c r) : kv'.isInvalidRequest c r := by
  obtain ⟨last, hlast, hle⟩ := hold
  obtain ⟨last', hlast', hle'⟩ := h c last hlast
  exact ⟨last', hlast', hle.trans hle'⟩

/-- A shard with the same data has the same writes. -/
theorem HasWrites.of_eq (h : HasWrites kv i writes)
    (hdata : (kv'.shards i).shardKVDB = (kv.shards i).shardKVDB)
    (hreq : RequestsLe kv.lastRequestMap kv'.lastRequestMap) : HasWrites kv' i writes where
  data key hkey := by
    rw [← h.data key hkey, Shard.get, Shard.get, hdata]
  known op hop hi := isInvalidRequest_mono hreq (h.known op hop hi)

/-- A write to another shard. -/
theorem HasWrites.concat_of_ne (h : HasWrites kv i writes) (hne : key2shard op.key ≠ i) :
    HasWrites kv i (writes ++ [op]) where
  data key hkey := by
    have hkeys : key ≠ op.key := by
      rintro rfl
      exact hne hkey
    rw [storeOf_concat, write_of_ne hkeys]
    exact h.data key hkey
  known op' hop' hi := by
    rcases List.mem_append.1 hop' with hmem | hmem
    · exact h.known op' hmem hi
    · rw [List.mem_singleton.1 hmem] at hi
      exact absurd hi hne

/-- The write that takes effect in the group. -/
theorem HasWrites.write (h : HasWrites kv (key2shard op.key) writes)
    (heffect : kv.effect (.getPutAppend op) = some op) :
    HasWrites (kv.apply (.getPutAppend op)) (key2shard op.key) (writes ++ [op]) where
  data key hkey := by
    rw [apply_effect heffect, storeOf_concat]
    cases hop : op.opType <;>
      simp only [Store.write, hop, Function.update_apply, h.data key hkey, h.data op.key rfl]
  known op' hop' hi := by
    obtain ⟨-, -, hserves, hfresh⟩ := effect_eq_some heffect
    rcases List.mem_append.1 hop' with hmem | hmem
    · exact isInvalidRequest_mono (apply_requests kv _) (h.known op' hmem hi)
    · rw [List.mem_singleton.1 hmem]
      have htable : (kv.apply (.getPutAppend op)).lastRequestMap =
          enterRequest kv.lastRequestMap op.clientId op.requestId :=
        (processGetPutAppend_requests ..).trans (if_pos ⟨hserves, .inr hfresh⟩)
      obtain ⟨r', hr', hle⟩ := enterRequest_known kv.lastRequestMap op.clientId op.requestId
      rw [← htable] at hr'
      exact ⟨r', hr', hle⟩

end

/-! ## Shards keep having owners -/

/-- A shard that has an owner in some config has one in all later ones. -/
def KeepsOwners (sys : System) : Prop :=
  sys.ctrler.configs.Pairwise fun old new => ∀ i, old.shards i ≠ 0 → new.shards i ≠ 0

instance decidableKeepsOwners (sys : System) : Decidable (KeepsOwners sys) :=
  inferInstanceAs (Decidable (List.Pairwise _ _))

section
variable {sys sys' : System} {g g₁ g₂ : Gid} {j k m n p q : Nat} {i : Fin NShards}
  {command : Command}
  {writes : List GetPutAppendArgs} {ok : System → Action → Prop}

/-- If no shard is left to group 0 in the end, then none was before. -/
theorem KeepsOwners.of_grows (h : KeepsOwners sys') (hgrow : Grows sys sys') : KeepsOwners sys :=
  List.Pairwise.sublist hgrow.configs.sublist h

/-- A shard that has an owner has one in all later configs. -/
theorem KeepsOwners.owner (h : KeepsOwners sys) {old new : Config}
    (hold : sys.ctrler.configs[m]? = some old)
    (hnew : sys.ctrler.configs[n]? = some new) (hle : m ≤ n) (h0 : old.shards i ≠ 0) :
    new.shards i ≠ 0 := by
  obtain ⟨hm, rfl⟩ := List.getElem?_eq_some_iff.1 hold
  obtain ⟨hn, rfl⟩ := List.getElem?_eq_some_iff.1 hnew
  rcases hle.eq_or_lt with rfl | hlt
  · exact h0
  · exact List.pairwise_iff_getElem.1 h m n hm hn hlt i h0

/-- What it takes to adopt a config. -/
theorem adopting_eq_some {a : Action} {x : Gid × Config} (h : sys.adopting a = some x) :
    ∃ j, a = .commit x.1 j ∧ (sys.groups x.1).started[j]? = some (.addConfig x.2) ∧
      x.2.num = (sys.state x.1).currentConfig.num + 1 := by
  cases a with
  | commit g j =>
    simp only [System.adopting] at h
    split at h
    · next newConfig hc =>
      split at h
      · next hnum =>
        cases h
        exact ⟨j, rfl, hc, hnum⟩
      · cases h
    · cases h
  | ctrler | client | requestConfig | insert | delete | adjust => cases h

/-- Then nobody takes a shard over from group 0 that another group has owned. -/
theorem KeepsOwners.reach (hkeep : KeepsOwners sys) (h : Reach System.step ok .init sys) :
    Reach System.step NoEarlyTakeover .init sys := by
  induction h with
  | init => exact .init
  | @step sys sys' a hr _ hst ih =>
    have hkeep := hkeep.of_grows (grows_step hst)
    refine (ih hkeep).step (fun x hx i h0 _ m hm config hconfig hne => ?_) hst
    obtain ⟨j, -, -, hnum⟩ := adopting_eq_some hx
    have hcurrent := ((origin_reach hr).matches x.1 (sys.groups x.1).log.length).current
    rw [← System.state] at hcurrent
    exact absurd h0 (hkeep.owner hconfig hcurrent (by omega) hne)

/-- A group has nothing of a shard that it does not own, or is about to pull. -/
def Clean (sys : System) : Prop :=
  ∀ g k i, ((sys.server g k).shards i).state = .pulling ∨
    ((sys.server g k).shards i).state = .serving ∧
      (sys.server g k).currentConfig.shards i ≠ g →
    ((sys.server g k).shards i).shardKVDB = ∅

/-- One command keeps that. -/
theorem Clean.commit (hclean : Clean sys) (ho : Origin sys) (hkeep : KeepsOwners sys)
    (hc : command ∈ (sys.groups g).started)
    (hi : (((sys.state g).apply command).shards i).state = .pulling ∨
      (((sys.state g).apply command).shards i).state = .serving ∧
        ((sys.state g).apply command).currentConfig.shards i ≠ g) :
    (((sys.state g).apply command).shards i).shardKVDB = ∅ := by
  have hgid : (sys.state g).gid = g := server_gid sys g _
  have hbefore := hclean g (sys.groups g).log.length i
  rw [← System.state] at hbefore
  have hmatches := ho.matches g (sys.groups g).log.length
  rw [← System.state] at hmatches
  have happ := applied (sys.state g) command
  generalize (sys.state g).apply command = kv' at happ hi ⊢
  cases happ with
  | @config newConfig _ hnum _ hconfig _ hshards =>
    have hidle := serving_of_idle (ho.idle_of_started hc hnum) i
    rw [hshards, reassign_shardKVDB]
    rw [hshards, hgid, hconfig] at hi
    refine hbefore (.inr ⟨hidle, fun hown => ?_⟩)
    rcases hi with hi | ⟨hi, hne⟩
    · exact (reassign_pulling hidle hi).2.1 hown
    · -- the shard passes to a group that pulls it
      have h0 : newConfig.shards i ≠ 0 := by
        rcases eq_or_ne g 0 with rfl | hg
        · exact hne
        · exact hkeep.owner hmatches.current (ho.addConfig (ho.started g _ hc)) (by omega)
            (by rwa [hown])
      rw [hown, reassign_of_bePulling hne h0] at hi
      cases hi
  | shards hgid' hconfig _ hshards =>
    have hstep := hshards i
    rw [hconfig] at hi
    generalize kv'.shards i = shard' at hstep hi ⊢
    cases hstep with
    | same => exact hbefore hi
    | written _ hserves hstate =>
      rw [hstate] at hi
      rcases hi with hi | ⟨-, hne⟩
      · rcases hserves.2 with hs | hs <;> rw [hi] at hs <;> cases hs
      · exact absurd (hserves.1.trans hgid) hne
    | inserted => rcases hi with hi | ⟨hi, -⟩ <;> cases hi
    | deleted => rfl
    | adjusted hnum hmem =>
      have hne := (hi.resolve_left fun hp => by cases hp).2
      rcases adjust_served (ho.started g _ hc) hnum hmem with hs | hs
      · exact hbefore (.inr ⟨hs, hne⟩)
      · exact absurd (hmatches.incoming i (.inr hs)).1 hne

/-- If no shard is left to group 0, then no group has anything of the shards it does not own. -/
theorem KeepsOwners.clean (hkeep : KeepsOwners sys) (h : Reach System.step ok .init sys) :
    Clean sys := by
  induction h with
  | init =>
    intro g k i _
    obtain ⟨k', hk', heq⟩ := exists_server System.init g k
    obtain rfl : k' = 0 := Nat.le_zero.1 hk'
    rw [← heq]
    rfl
  | step hr _ hst ih =>
    have hkeep := hkeep.of_grows (grows_step hst)
    intro g k i hi
    rcases step_server hst g k with heq | ⟨j, command, -, hc, heq⟩
    · rw [heq] at hi ⊢
      exact ih hkeep g k i hi
    · rw [heq] at hi ⊢
      exact (ih hkeep).commit (origin_reach hr) hkeep (List.mem_of_getElem? hc) hi

/-! ## The group that has a shard -/

/-- Group `g` has not installed shard `i` of config `n` yet. -/
def System.Awaits (sys : System) (g : Gid) (n : Nat) (i : Fin NShards) : Prop :=
  (sys.state g).currentConfig.num < n ∨
    (sys.state g).currentConfig.num = n ∧ ((sys.state g).shards i).state = .pulling

/-- All writes to a shard are with the group that serves it, and with the group that gives it away
until the new owner has installed it. -/
structure Held (sys : System) (writes : List GetPutAppendArgs) : Prop where
  serves : ∀ g ≠ 0, ∀ i, (sys.state g).checkShardAndState i → HasWrites (sys.state g) i writes
  gives : ∀ g ≠ 0, ∀ n p i, sys.Adopts g n p →
    ((sys.server g (p + 1)).shards i).state = .bePulling →
    sys.Awaits ((sys.server g (p + 1)).currentConfig.shards i) n i →
      HasWrites (sys.server g (p + 1)) i writes
  executed : ∀ op ∈ writes, ∃ g ≠ 0, ∃ q, sys.Executes g q op

theorem held_init : Held .init [] := by
  refine ⟨fun g _ i _ => ⟨fun key _ => rfl, fun op hop => by cases hop⟩, fun g _ n p i ha => ?_,
    fun op hop => by cases hop⟩
  obtain ⟨newConfig, hlog, -⟩ := ha
  cases hlog

/-- Who waits has waited. -/
theorem System.Awaits.of_grows (h : sys'.Awaits g n i) (hgrow : Grows sys sys') :
    sys.Awaits g n i := by
  have hlater : Later (sys.state g) (sys'.state g) := by
    rw [System.state, ← hgrow.server le_rfl]
    exact later_server (hgrow.log g).length_le
  rcases h with hlt | ⟨hnum, hpull⟩
  · exact .inl (hlater.num_le.trans_lt hlt)
  · rcases (hlater.num_le.trans_eq hnum).eq_or_lt with heq | hlt
    · have hev := hlater.evolves (hnum.trans heq.symm) i
      rw [hpull] at hev
      exact .inr ⟨heq, hev.of_pulling⟩
    · exact .inl hlt

/-- No two groups serve a shard. -/
theorem Custody.serves_unique (hc : Custody sys) (ho : Origin sys) (hg₁ : g₁ ≠ 0) (hg₂ : g₂ ≠ 0)
    (h₁ : (sys.state g₁).checkShardAndState i) (h₂ : (sys.state g₂).checkShardAndState i) :
    g₁ = g₂ := by
  rcases Nat.lt_trichotomy (sys.state g₁).currentConfig.num (sys.state g₂).currentConfig.num with
    hlt | heq | hgt
  · exact absurd h₁ (hc.not_serves ho hg₁ hlt h₂)
  · have hconfig := ((ho.matches g₁ _).eq_of_num (ho.matches g₂ _) heq).1
    have hown : (sys.state g₁).currentConfig.shards i = g₁ := h₁.1.trans (server_gid sys g₁ _)
    have hown' : (sys.state g₂).currentConfig.shards i = g₂ := h₂.1.trans (server_gid sys g₂ _)
    rw [System.state, hconfig] at hown
    exact hown.symm.trans hown'
  · exact absurd h₂ (hc.not_serves ho hg₂ hgt h₁)

/-- While a shard is waited for nobody serves it. -/
theorem Custody.not_serves_awaited (hc : Custody sys) (ho : Origin sys) (hg : g ≠ 0)
    (ha : sys.Adopts g₁ n p) (hbe : ((sys.server g₁ (p + 1)).shards i).state = .bePulling)
    (hawaits : sys.Awaits ((sys.server g₁ (p + 1)).currentConfig.shards i) n i) :
    ¬ (sys.state g).checkShardAndState i := by
  intro hserves
  have hnum : (sys.server g₁ (p + 1)).currentConfig.num = n := ha.num_succ
  have hown : (sys.state g).currentConfig.shards i = g := hserves.1.trans (server_gid sys g _)
  obtain ⟨-, -, h0⟩ := (ho.matches g₁ (p + 1)).outgoing i hbe
  rcases Nat.lt_trichotomy (sys.state g).currentConfig.num n with hlt | heq | hgt
  · -- the group has moved past the config in which it serves the shard
    have hpassed := hc g₁ (p + 1) i (.inl hbe) _ (hnum.symm ▸ hlt) _ (ho.matches g _).current
    rw [← System.state, hown] at hpassed
    exact lt_irrefl _ (hpassed hg)
  · -- the group is the new owner, which pulls the shard
    have hconfig := ((ho.matches g _).eq_of_num (ho.matches g₁ (p + 1)) (heq.trans hnum.symm)).1
    rw [← System.state] at hconfig
    rw [← hconfig, hown] at hawaits
    rcases hawaits with hlt | ⟨-, hpull⟩
    · exact absurd heq hlt.ne
    · rcases hserves.2 with hs | hs <;> rw [hpull] at hs <;> cases hs
  · -- the new owner has moved past the config
    have hpassed := hc g _ i (.inr hserves) n hgt _ (hnum ▸ (ho.matches g₁ (p + 1)).current) h0
    rcases hawaits with hlt | ⟨heq, -⟩ <;> omega

/-- A shard that no group has owned was never written. -/
theorem Held.not_written (h : Held sys writes) (hc : Custody sys) (ho : Origin sys)
    (hkeep : KeepsOwners sys)
    {newConfig : Config} (hnew : sys.ctrler.configs[newConfig.num]? = some newConfig)
    (hnum : newConfig.num = (sys.state g).currentConfig.num + 1)
    (h0 : (sys.state g).currentConfig.shards i = 0) (hg : g ≠ 0) (hown : newConfig.shards i = g)
    (op : GetPutAppendArgs) (hop : op ∈ writes) : key2shard op.key ≠ i := by
  rintro rfl
  obtain ⟨h, hh, q, hex⟩ := h.executed op hop
  have howner : (sys.server h q).currentConfig.shards (key2shard op.key) = h :=
    hex.serves.1.trans (server_gid sys h q)
  have hcurrent := (ho.matches g (sys.groups g).log.length).current
  rw [← System.state] at hcurrent
  -- the group that wrote it is at a later config than this one
  have hlt : (sys.state g).currentConfig.num < (sys.server h q).currentConfig.num := by
    by_contra hle
    exact hkeep.owner (ho.matches h q).current hcurrent (not_lt.1 hle) (by rwa [howner]) h0
  rcases (Nat.succ_le_of_lt hlt).eq_or_lt with heq | hgt
  · have hsame : newConfig = (sys.server h q).currentConfig := by
      have hget := (ho.matches h q).current
      rw [← heq, Nat.succ_eq_add_one, ← hnum, hnew] at hget
      exact Option.some.inj hget
    have hgh : g = h :=
      hown.symm.trans ((congrArg (·.shards (key2shard op.key)) hsame).trans howner)
    obtain ⟨k', hk', hserver⟩ := exists_server sys h q
    have hle : (sys.server h k').currentConfig.num ≤ (sys.state h).currentConfig.num :=
      server_num_le hk'
    rw [hserver, ← hgh] at hle
    rw [← hgh] at hlt
    exact absurd hle (not_le.2 hlt)
  · have hpassed :=
      hc h q _ (.inr hex.serves) newConfig.num (hnum ▸ hgt) newConfig hnew (hown ▸ hg)
    rw [hown] at hpassed
    omega

/-- A client command that a group commits. -/
theorem Held.serves_client (h : Held sys writes) (hg : g ≠ 0) {op : GetPutAppendArgs}
    (hserves : ((sys.state g).apply (.getPutAppend op)).checkShardAndState i) :
    HasWrites ((sys.state g).apply (.getPutAppend op)) i
      (writes ++ ((sys.state g).effect (.getPutAppend op)).toList) := by
  have hreq := apply_requests (sys.state g) (.getPutAppend op)
  have hold : (sys.state g).checkShardAndState i := by
    cases applied (sys.state g) (.getPutAppend op) with
    | shards hgid hconfig _ hshards =>
      have hstate : (((sys.state g).apply (.getPutAppend op)).shards i).state =
          ((sys.state g).shards i).state := by
        have hstep := hshards i
        generalize ((sys.state g).apply (.getPutAppend op)).shards i = shard' at hstep ⊢
        cases hstep with
        | same => rfl
        | written _ _ hstate => exact hstate
      unfold ShardKV.checkShardAndState at hserves ⊢
      rwa [hstate, hconfig, hgid] at hserves
  have hagrees := h.serves g hg i hold
  cases heffect : (sys.state g).effect (.getPutAppend op) with
  | none =>
    rw [Option.toList_none, List.append_nil]
    refine hagrees.of_eq ?_ hreq
    rw [apply_shards_of_ne (fun op' hop' => ?_)]
    rw [heffect] at hop'
    cases hop'
  | some op' =>
    obtain ⟨heq, -⟩ := effect_eq_some heffect
    cases heq
    rw [Option.toList_some]
    rcases eq_or_ne i (key2shard op.key) with rfl | hne
    · exact hagrees.write heffect
    · refine (hagrees.of_eq ?_ hreq).concat_of_ne hne.symm
      rw [apply_shards_of_ne fun _ _ => hne]

/-- What a group installs is what the group that gave the shard away had. -/
theorem Held.installed (h : Held sys writes) (ho : Origin sys) (hclean : Clean sys)
    {response : PullShardReply} {shard : Shard}
    (hc : .insertShard response ∈ (sys.groups g).started)
    (hn : response.configNum = (sys.state g).currentConfig.num)
    (hi : response.shards[i]? = some shard)
    (hpull : ((sys.state g).shards i).state = .pulling) {kv' : ShardKV}
    (hdata : (kv'.shards i).shardKVDB = ((sys.state g).shards i).shardKVDB ∪ shard.shardKVDB)
    (hreq : RequestsLe response.lastRequestMap kv'.lastRequestMap) : HasWrites kv' i writes := by
  have hs := ho.started g _ hc
  obtain ⟨hown, -, h0⟩ := (ho.matches g (sys.groups g).log.length).incoming i (.inl hpull)
  obtain ⟨k, hk, hbe, -⟩ := ho.insert_source hs hi hn
  obtain ⟨p, ha, hdb, hrequests⟩ := ho.inserted hs hi hn rfl
  generalize (sys.server g (sys.groups g).log.length).lastConfig.shards i =
    g₁ at h0 hk hbe ha hdb hrequests
  -- the giver has the shard ready since it came to the config
  have hlater : Later (sys.server g₁ (p + 1)) (sys.server g₁ k) :=
    later_server (ha.le_num_iff.1 hk.le)
  have hbe' := hlater.evolves (hk.symm.trans ha.num_succ.symm) i
  rw [hbe] at hbe'
  have hconfig := ((ho.matches _ (p + 1)).eq_of_num (ho.matches g (sys.groups g).log.length)
    (ha.num_succ.trans hn)).1
  have hagrees :=
    h.gives _ h0 _ p i ha hbe'.of_bePulling (by rw [hconfig, hown]; exact .inr ⟨hn.symm, hpull⟩)
  refine ⟨fun key hkey => ?_, fun op hop hop' => ?_⟩
  · have hempty : ((sys.state g).shards i).shardKVDB = ∅ := hclean g _ i (.inl hpull)
    rw [← hagrees.data key hkey, Shard.get, hdata, hempty, GoMap.empty_union, hdb]
    rfl
  · exact isInvalidRequest_mono (hrequests.trans hreq) (hagrees.known op hop hop')

/-- Any other command that a group commits. -/
theorem Held.serves_other (h : Held sys writes) (hcust : Custody sys) (ho : Origin sys)
    (hkeep : KeepsOwners sys) (hclean : Clean sys) (hg : g ≠ 0)
    (hc : command ∈ (sys.groups g).started) (hother : ∀ op, command ≠ .getPutAppend op)
    (hserves : ((sys.state g).apply command).checkShardAndState i) :
    HasWrites ((sys.state g).apply command) i writes := by
  have hreq := apply_requests (sys.state g) command
  have hgid : (sys.state g).gid = g := server_gid sys g _
  have hmatches := ho.matches g (sys.groups g).log.length
  rw [← System.state] at hmatches
  have hinsert : ∀ response, command = .insertShard response →
      response.configNum = (sys.state g).currentConfig.num →
      RequestsLe response.lastRequestMap ((sys.state g).apply command).lastRequestMap := by
    rintro response rfl hn
    exact insertShard_requests hn
  have happ := applied (sys.state g) command
  generalize (sys.state g).apply command = kv' at happ hreq hinsert hserves ⊢
  cases happ with
  | @config newConfig _ hnum hgid' hconfig _ hshards =>
    have hidle := serving_of_idle (ho.idle_of_started hc hnum) i
    have hdata : (kv'.shards i).shardKVDB = ((sys.state g).shards i).shardKVDB := by
      rw [hshards, reassign_shardKVDB]
    rcases holds_of_config hidle hgid' hconfig (hshards i) (.inr hserves) with hold | ⟨h0, hnew⟩
    · exact (h.serves g hg i hold).of_eq hdata hreq
    · -- nobody has owned the shard before
      have hno := h.not_written hcust ho hkeep (ho.addConfig (ho.started g _ hc)) hnum h0 hg
        (hnew.trans hgid)
      have hempty : (kv'.shards i).shardKVDB = ∅ := by
        rw [hdata]
        refine hclean g (sys.groups g).log.length i (.inr ⟨hidle, ?_⟩)
        rw [← System.state, h0]
        exact hg.symm
      refine ⟨fun key hkey => ?_, fun op hop hi => absurd hi (hno op hop)⟩
      rw [Shard.get, hempty, Std.ExtTreeMap.getElem?_empty, storeOf_eq_nil fun op hop =>
        hkey ▸ hno op hop]
      rfl
  | shards hgid' hconfig _ hshards =>
    have hstep := hshards i
    have hown : (sys.state g).currentConfig.shards i = g := by
      rw [← hconfig]
      exact hserves.1.trans (hgid'.trans hgid)
    have hstate := hserves.2
    generalize hshard : kv'.shards i = shard' at hstep hstate
    cases hstep with
    | same => exact (h.serves g hg i ⟨hown.trans hgid.symm, hstate⟩).of_eq (by rw [hshard]) hreq
    | written => exact absurd rfl (hother _)
    | inserted hnum hmem hpull =>
      exact h.installed ho hclean hc hnum hmem hpull (by rw [hshard]) (hinsert _ rfl hnum)
    | deleted _ _ hbe => exact absurd hown (hmatches.outgoing i hbe).2.1
    | adjusted hnum hmem =>
      have hold := adjust_served (ho.started g _ hc) hnum hmem
      exact (h.serves g hg i ⟨hown.trans hgid.symm, hold⟩).of_eq (by rw [hshard]) hreq

/-- The group that commits a command has all writes to the shards that it serves, with the one that
takes effect. -/
theorem Held.serves_commit (h : Held sys writes) (hcust : Custody sys) (ho : Origin sys)
    (hkeep : KeepsOwners sys) (hclean : Clean sys) (hg : g ≠ 0)
    (hc : command ∈ (sys.groups g).started)
    (hserves : ((sys.state g).apply command).checkShardAndState i) :
    HasWrites ((sys.state g).apply command) i
      (writes ++ ((sys.state g).effect command).toList) := by
  have hother : (∀ op, command ≠ .getPutAppend op) → (sys.state g).effect command = none := by
    intro hother
    cases heffect : (sys.state g).effect command with
    | none => rfl
    | some op => exact absurd (effect_eq_some heffect).1 (hother op)
  cases command with
  | getPutAppend op => exact h.serves_client hg hserves
  | addConfig | insertShard | deleteShard | adjustShardState =>
    rw [hother fun _ => Command.noConfusion, Option.toList_none, List.append_nil]
    exact h.serves_other hcust ho hkeep hclean hg hc (fun _ => Command.noConfusion) hserves

/-- The write that takes effect, if there is one, is to another shard. -/
theorem HasWrites.concat_effect {kv : ShardKV} (h : HasWrites kv i writes)
    {op : Option GetPutAppendArgs}
    (hop : ∀ op' ∈ op, key2shard op'.key ≠ i) : HasWrites kv i (writes ++ op.toList) := by
  cases op with
  | none => rwa [Option.toList_none, List.append_nil]
  | some op => exact h.concat_of_ne (hop op rfl)

/-- A group that comes to a config by which it gives a shard away has served it. -/
theorem Held.gives_config (h : Held sys writes) (ho : Origin sys) (hg : g ≠ 0) {newConfig : Config}
    (hc : .addConfig newConfig ∈ (sys.groups g).started)
    (hnum : newConfig.num = (sys.state g).currentConfig.num + 1)
    (hbe : (((sys.state g).apply (.addConfig newConfig)).shards i).state = .bePulling) :
    HasWrites ((sys.state g).apply (.addConfig newConfig)) i writes := by
  have hreq := apply_requests (sys.state g) (.addConfig newConfig)
  have hgid : (sys.state g).gid = g := server_gid sys g _
  have hidle := serving_of_idle (ho.idle_of_started hc hnum) i
  have hshard : ((sys.state g).apply (.addConfig newConfig)).shards i =
    ((sys.state g).shards i).reassign
      (sys.state g).gid ((sys.state g).currentConfig.shards i) (newConfig.shards i) := by
    change ((sys.state g).processAddConfig newConfig).1.shards i = _
    rw [ShardKV.processAddConfig, if_pos hnum]
  rw [hshard] at hbe
  have hold := (reassign_bePulling hidle hbe).1
  refine (h.serves g hg i ⟨hold, .inl hidle⟩).of_eq ?_ hreq
  rw [hshard, reassign_shardKVDB]

/-- A command is committed. -/
theorem Held.commit (h : Held sys writes) (hcust : Custody sys) (ho : Origin sys)
    (hkeep : KeepsOwners sys)
    (hclean : Clean sys) (hzero : g = 0 → ∀ op, command ≠ .getPutAppend op)
    (hst : sys.step (.commit g j) = some sys') (hc : (sys.groups g).started[j]? = some command) :
    Held sys' (writes ++ ((sys.state g).effect command).toList) := by
  have hgrow := grows_step hst
  have hstate := step_commit hst hc
  have hlog := step_commit_log hst hc
  have hmem := List.mem_of_getElem? hc
  have heffect : ∀ op, (sys.state g).effect command = some op →
      g ≠ 0 ∧ (sys.state g).checkShardAndState (key2shard op.key) := by
    intro op hop
    obtain ⟨rfl, -, hserves, -⟩ := effect_eq_some hop
    exact ⟨fun hg => hzero hg op rfl, hserves⟩
  have hsys : sys' = sys.committed g j command := by
    simp only [System.step, hc, Option.bind_eq_bind, Option.bind_some] at hst
    exact (Option.some.inj hst).symm
  refine ⟨fun g' hg' i hserves => ?_, fun g₁ hg₁ n p i ha hbe hawaits => ?_, fun op hop => ?_⟩
  · rcases eq_or_ne g' g with rfl | hother
    · rw [hstate] at hserves ⊢
      exact h.serves_commit hcust ho hkeep hclean hg' hmem hserves
    · rw [hsys, System.committed_state_of_ne hother] at hserves ⊢
      refine (h.serves g' hg' i hserves).concat_effect fun op hop heq => hother ?_
      obtain ⟨hg, hserves'⟩ := heffect op hop
      rw [heq] at hserves'
      exact hcust.serves_unique ho hg' hg hserves hserves'
  · obtain ⟨newConfig, hp, hn, hnum⟩ := ha
    rcases Nat.lt_or_ge p (sys.groups g₁).log.length with hlt | hge
    · -- the group has come to the config before
      have hp' : (sys.groups g₁).log[p]? = some (.addConfig newConfig) := by
        obtain ⟨l, hl⟩ := hgrow.log g₁
        rwa [← hl, List.getElem?_append_left hlt] at hp
      rw [hgrow.server hlt.le] at hnum
      have ha : sys.Adopts g₁ n p := ⟨newConfig, hp', hn, hnum⟩
      rw [hgrow.server hlt] at hbe hawaits ⊢
      have hawaits := hawaits.of_grows hgrow
      refine (h.gives g₁ hg₁ n p i ha hbe hawaits).concat_effect fun op hop heq => ?_
      obtain ⟨hg, hserves⟩ := heffect op hop
      rw [heq] at hserves
      exact hcust.not_serves_awaited ho hg ha hbe hawaits hserves
    · -- it comes to the config now
      have hg₁g : g₁ = g := by
        by_contra hne
        rw [hsys, System.committed_groups_of_ne hne] at hp
        exact absurd (List.getElem?_eq_some_iff.1 hp).1 (not_lt.2 hge)
      subst hg₁g
      rw [hsys, System.committed_groups_self] at hp
      obtain ⟨rfl, hcommand⟩ := (of_getElem?_concat hp).resolve_left fun hold =>
        absurd (List.getElem?_eq_some_iff.1 hold).1 (not_lt.2 hge)
      subst hcommand
      have hserver : sys'.server g₁ ((sys.groups g₁).log.length + 1) =
          (sys.state g₁).apply (.addConfig newConfig) := by
        rw [server_succ hlog, hgrow.server le_rfl]
        rfl
      rw [hgrow.server le_rfl] at hnum
      rw [hserver] at hbe ⊢
      refine (h.gives_config ho hg₁ hmem (hn.trans hnum.symm) hbe).concat_effect fun op hop => ?_
      cases hop
  · rcases List.mem_append.1 hop with hold | hnew
    · obtain ⟨g', hg', q, hex⟩ := h.executed op hold
      exact ⟨g', hg', q, hex.mono hgrow⟩
    · have hop' := Option.mem_toList.1 hnew
      obtain ⟨rfl, hwrite, hserves, hfresh⟩ := effect_eq_some hop'
      refine ⟨g, (heffect op hop').1, _, hlog, hwrite, ?_, ?_⟩
      · rw [hgrow.server le_rfl]
        exact hserves
      · rw [hgrow.server le_rfl]
        exact hfresh

/-- Where the data is does not depend on what is started, nor on the controller. -/
theorem Held.of_log_eq (h : Held sys writes)
    (hlog : ∀ g, (sys'.groups g).log = (sys.groups g).log) :
    Held sys' writes := by
  have hserver : ∀ g k, sys'.server g k = sys.server g k := by
    intro g k
    rw [System.server, hlog, System.server]
  have hstate : ∀ g, sys'.state g = sys.state g := by
    intro g
    rw [System.state, hserver, hlog, System.state]
  refine ⟨fun g hg i hserves => ?_, fun g hg n p i ha hbe hawaits => ?_, fun op hop => ?_⟩
  · rw [hstate] at hserves ⊢
    exact h.serves g hg i hserves
  · rw [System.Awaits, hstate] at hawaits
    rw [hserver] at hbe hawaits ⊢
    obtain ⟨newConfig, hp, hn, hnum⟩ := ha
    rw [hlog] at hp
    rw [hserver] at hnum
    exact h.gives g hg n p i ⟨newConfig, hp, hn, hnum⟩ hbe hawaits
  · obtain ⟨g, hg, q, hq, hwrite, hserves, hfresh⟩ := h.executed op hop
    exact ⟨g, hg, q, hlog g ▸ hq, hwrite, by rwa [hserver], by rwa [hserver]⟩

end

end DistLabs.Shardkv
