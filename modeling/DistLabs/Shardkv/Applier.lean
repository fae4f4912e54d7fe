import DistLabs.Lib.ApplyStream
import DistLabs.Lib.Replica
import DistLabs.Lib.Transition
import DistLabs.Shardkv.Commands

/-!
# Snapshots and replay in shardkv

`stateAt gid log i` is the state of group `gid` after the first `i` committed commands. The
commands of a migration are not idempotent, so each must be applied once; the protection is
`lastIncludedIndex`, which `applier` sets to the index of the last command or snapshot. In every
run the state of a server is that of the largest index it has received (`migration_replay_agree`),
and no shard is missing: a command that finds one missing dereferences a nil pointer (`none`).
-/

namespace DistLabs.Shardkv

open Lib Shardctrler

/-- What `encodeState` saves. -/
structure Saved where
  shards : GoMap (Fin NShards) Shard
  lastRequestMap : GoMap Int Int
  lastConfig : Config
  currentConfig : Config

/-- The fields of `ShardKV` that `applier` works on. Here `kv.shards` is the map that it is. -/
structure Server extends Saved where
  gid : Gid
  lastIncludedIndex : Nat := 0

/-- A map with an entry for every shard. -/
def allShards (shards : Fin NShards → Shard) : GoMap (Fin NShards) Shard :=
  (List.finRange NShards).foldl (fun m i => m.insert i (shards i)) ∅

/-- The state of a group as `encodeState` saves it. -/
def ShardKV.saved (kv : ShardKV) : Saved :=
  ⟨allShards kv.shards, kv.lastRequestMap, kv.lastConfig, kv.currentConfig⟩

/-- The body of the loop of `StartServer`. -/
def makeMissing (shards : GoMap (Fin NShards) Shard) (shardId : Fin NShards) :
    GoMap (Fin NShards) Shard :=
  if shardId ∈ shards then shards else shards.insert shardId (.make .serving)

namespace Server

/-- The state that the commands work on, if no shard is missing. -/
def kv? (sv : Server) : Option ShardKV :=
  if ∀ i, i ∈ sv.shards then
    some ⟨sv.gid, sv.currentConfig, sv.lastConfig, fun i => sv.shards[i]?.getD (.make .serving),
      sv.lastRequestMap⟩
  else none

/-- `execute`. -/
def execute (sv : Server) (command : Command) : Option Server :=
  sv.kv?.map fun kv => { sv with toSaved := (kv.apply command).saved }

section
variable {β : Type} (codec : Codec Saved β)

/-- `readPersist`. -/
def readPersist (sv : Server) (data : Option β) : Server :=
  match data with
  | none => sv
  | some data =>
    match codec.decode data with
    | none => sv
    | some saved => { sv with toSaved := saved }

/-- `StartServer`, with the snapshot that the persister has. -/
def startServer (gid : Gid) (snapshot : Option β) : Server :=
  let sv := readPersist codec
    { gid, shards := ∅, lastRequestMap := ∅, lastConfig := .zero, currentConfig := .zero } snapshot
  { sv with shards := (List.finRange NShards).foldl makeMissing sv.shards }

/-- The body of the loop of `applier`. Waking handlers up and handing a snapshot to Raft do not
change these fields. -/
def applier (sv : Server) (applyMsg : ApplyMessage Command β) : Option Server :=
  if applyMsg.commandValid then
    if applyMsg.commandIndex ≤ sv.lastIncludedIndex then some sv
    else do
      let sv ← sv.execute (← applyMsg.command)
      return { sv with lastIncludedIndex := applyMsg.commandIndex }
  else if applyMsg.snapshotValid then
    if applyMsg.snapshotIndex ≤ sv.lastIncludedIndex then some sv
    else some { sv.readPersist codec applyMsg.snapshot with
      lastIncludedIndex := applyMsg.snapshotIndex }
  else some sv

end

end Server

/-- The state of group `gid` after the first `i` committed commands. -/
def stateAt (gid : Gid) (log : List Command) (i : Nat) : ShardKV :=
  replica ShardKV.apply (.startServer gid) log i

/-! ## Maps with all shards -/

/-- What a loop over shards puts into the map. -/
theorem foldl_insert_getElem? (shards : Fin NShards → Shard) (i : Fin NShards)
    (l : List (Fin NShards)) (m : GoMap (Fin NShards) Shard) :
    (l.foldl (fun m i => m.insert i (shards i)) m)[i]? =
      if i ∈ l then some (shards i) else m[i]? := by
  induction l generalizing m with
  | nil => rfl
  | cons j l ih =>
    rw [List.foldl_cons, ih, GoMap.getElem?_insert]
    by_cases hij : i = j
    · subst hij
      simp
    · simp [hij]

/-- All shards are in the map. -/
theorem allShards_getElem? (shards : Fin NShards → Shard) (i : Fin NShards) :
    (allShards shards)[i]? = some (shards i) := by
  rw [allShards, foldl_insert_getElem?, if_pos (List.mem_finRange i)]

/-- A shard that is missing is made, and the others stay. -/
theorem makeMissing_getElem? (m : GoMap (Fin NShards) Shard) (i j : Fin NShards) :
    (makeMissing m j)[i]? = if i = j then some (m[i]?.getD (.make .serving)) else m[i]? := by
  unfold makeMissing
  by_cases hij : i = j
  · subst hij
    rw [if_pos rfl]
    split
    · next hmem =>
      obtain ⟨s, hs⟩ := Option.isSome_iff_exists.1 (Std.ExtTreeMap.mem_iff_isSome_getElem?.1 hmem)
      rw [hs]
      rfl
    · next hmem =>
      rw [GoMap.getElem?_insert, if_pos rfl, Std.ExtTreeMap.getElem?_eq_none hmem]
      rfl
  · rw [if_neg hij]
    split
    · rfl
    · rw [GoMap.getElem?_insert, if_neg hij]

/-- `StartServer` keeps the shards that there are and makes the others. -/
theorem foldl_makeMissing_getElem? (i : Fin NShards) (l : List (Fin NShards))
    (m : GoMap (Fin NShards) Shard) :
    (l.foldl makeMissing m)[i]? =
      if i ∈ l then some (m[i]?.getD (.make .serving)) else m[i]? := by
  induction l generalizing m with
  | nil => rfl
  | cons j l ih =>
    rw [List.foldl_cons, ih, makeMissing_getElem?]
    by_cases hij : i = j
    · subst hij
      simp
    · simp [hij]

/-- A server has the state of a group if its fields are those of the group. -/
theorem kv?_eq_some {sv : Server} {kv : ShardKV} (hgid : sv.gid = kv.gid)
    (hcurrent : sv.currentConfig = kv.currentConfig) (hlast : sv.lastConfig = kv.lastConfig)
    (hshards : ∀ i, sv.shards[i]? = some (kv.shards i))
    (hreq : sv.lastRequestMap = kv.lastRequestMap) : sv.kv? = some kv := by
  unfold Server.kv?
  rw [if_pos fun i => by rw [Std.ExtTreeMap.mem_iff_isSome_getElem?, hshards]; rfl]
  simp only [hgid, hcurrent, hlast, hshards, hreq, Option.getD_some]

/-- A server that has a state has its group and all shards. -/
theorem kv?_spec {sv : Server} {kv : ShardKV} (h : sv.kv? = some kv) :
    sv.gid = kv.gid ∧ ∀ i, i ∈ sv.shards := by
  unfold Server.kv? at h
  split at h
  · next hmem =>
    cases h
    exact ⟨rfl, hmem⟩
  · cases h

/-! ## Runs -/

section
variable {β : Type} {codec : Codec Saved β} {gid : Gid} {log : List Command} {m₀ : Nat}

/-- A message arrives at a server, which may have crashed (`none`). -/
abbrev receive (codec : Codec Saved β) (gid : Gid) (log : List Command) (m₀ : Nat) :
    Fed (Option Server) → Notice → Option (Fed (Option Server)) :=
  Fed.step log (fun j => codec.encode (stateAt gid log j).saved)
    (fun sv msg => sv.bind fun sv => sv.applier codec msg) m₀

/-- A server before any message: fresh, or started from the snapshot of the first `m₀` commands. -/
def Started (codec : Codec Saved β) (gid : Gid) (log : List Command) (m₀ : Nat)
    (f : Fed (Option Server)) : Prop :=
  f.received = m₀ ∧ (m₀ = 0 ∧ f.server = some (.startServer codec gid none) ∨
    f.server = some (.startServer codec gid (some (codec.encode (stateAt gid log m₀).saved))))

/-- The state is that of the largest index received, and `lastIncludedIndex` is that index or,
before any message, 0. -/
def Agrees (gid : Gid) (log : List Command) (m₀ : Nat) (f : Fed (Option Server)) : Prop :=
  ∃ sv, f.server = some sv ∧ sv.kv? = some (stateAt gid log f.received) ∧
    (sv.lastIncludedIndex = f.received ∨ sv.lastIncludedIndex = 0 ∧ f.received = m₀)

/-- Commands do not change the group. -/
theorem stateAt_gid (gid : Gid) (log : List Command) (i : Nat) :
    (stateAt gid log i).gid = gid := by
  have h : Later (stateAt gid log 0) (stateAt gid log i) :=
    replica_rel Later.refl Later.trans later_apply (Nat.zero_le i)
  exact h.gid

/-- A server that starts with nothing is in the first state. -/
theorem startServer_fresh : (Server.startServer codec gid none).kv? = some (.startServer gid) := by
  refine kv?_eq_some rfl rfl rfl (fun i => ?_) rfl
  refine (foldl_makeMissing_getElem? i (List.finRange NShards) ∅).trans ?_
  rw [if_pos (List.mem_finRange i), Std.ExtTreeMap.getElem?_empty]
  rfl

/-- A server that starts with a snapshot is in the state that was saved. -/
theorem startServer_saved {kv : ShardKV} (hgid : kv.gid = gid) :
    (Server.startServer codec gid (some (codec.encode kv.saved))).kv? = some kv := by
  simp only [Server.startServer, Server.readPersist, codec.decode_encode, ShardKV.saved]
  refine kv?_eq_some hgid.symm rfl rfl (fun i => ?_) rfl
  simp only [foldl_makeMissing_getElem?, List.mem_finRange, if_true, allShards_getElem?,
    Option.getD_some]

/-- A server that starts agrees with the log. -/
theorem Started.agrees {f : Fed (Option Server)} (h : Started codec gid log m₀ f) :
    Agrees gid log m₀ f := by
  obtain ⟨hm, ⟨rfl, hf⟩ | hf⟩ := h
  · refine ⟨_, hf, ?_, .inr ⟨rfl, hm⟩⟩
    rw [hm]
    exact startServer_fresh
  · refine ⟨_, hf, ?_, .inr ⟨?_, hm⟩⟩
    · rw [hm]
      exact startServer_saved (stateAt_gid gid log m₀)
    · simp only [Server.startServer, Server.readPersist, codec.decode_encode]

/-- A command that was not applied yet is the next one. -/
theorem applier_command {sv : Server} {kv : ShardKV} (h : sv.kv? = some kv) (i : Nat)
    (command : Command) (hi : sv.lastIncludedIndex < i) :
    sv.applier codec (.ofCommand i command) =
      some { sv with toSaved := (kv.apply command).saved, lastIncludedIndex := i } := by
  simp only [Server.applier, ApplyMessage.ofCommand, Server.execute, h, if_true]
  rw [if_neg (not_le.2 hi)]
  rfl

/-- A later snapshot replaces what a server has. -/
theorem applier_snapshot {sv : Server} (j : Nat) (saved : Saved) (hj : sv.lastIncludedIndex < j) :
    sv.applier codec (.ofSnapshot j (codec.encode saved)) =
      some { sv with toSaved := saved, lastIncludedIndex := j } := by
  simp only [Server.applier, ApplyMessage.ofSnapshot, Server.readPersist, codec.decode_encode,
    if_true, Bool.false_eq_true, if_false]
  rw [if_neg (not_le.2 hj)]

/-- A server that agrees with the log still does after a message. -/
theorem Agrees.step {f f' : Fed (Option Server)} {n : Notice} (h : Agrees gid log m₀ f)
    (hst : receive codec gid log m₀ f n = some f') : Agrees gid log m₀ f' := by
  obtain ⟨sv, hsv, hkv, hlast⟩ := h
  have hgid := (kv?_spec hkv).1
  rcases Fed.step_cases hst with ⟨i, command, rfl, h₀, hi, hcommand, rfl⟩ | ⟨j, rfl, h₀, hj, rfl⟩
  · rw [hsv, Option.bind_some]
    by_cases hle : i + 1 ≤ sv.lastIncludedIndex
    · refine ⟨sv, ?_, ?_, ?_⟩
      · simp only [Server.applier, ApplyMessage.ofCommand, hle, if_true]
      · rw [Nat.max_eq_left (by omega)]
        exact hkv
      · simp only
        omega
    · rw [applier_command hkv _ _ (not_le.1 hle)]
      obtain rfl : i = f.received := by omega
      have hnext : stateAt gid log (f.received + 1) = (stateAt gid log f.received).apply command :=
        replica_succ hcommand
      refine ⟨_, rfl, ?_, .inl ?_⟩
      · simp only
        rw [Nat.max_eq_right (Nat.le_succ _), hnext]
        exact kv?_eq_some (hgid.trans (later_apply _ _).gid.symm) rfl rfl
          (allShards_getElem? _) rfl
      · simp only
        omega
  · rw [hsv, Option.bind_some]
    by_cases hle : j ≤ sv.lastIncludedIndex
    · refine ⟨sv, ?_, ?_, ?_⟩
      · simp only [Server.applier, ApplyMessage.ofSnapshot, hle, if_true, Bool.false_eq_true,
          if_false]
      · rw [Nat.max_eq_left (by omega)]
        exact hkv
      · simp only
        omega
    · rw [applier_snapshot _ _ (not_le.1 hle)]
      have hmax : max f.received j = j := by omega
      refine ⟨_, rfl, ?_, .inl ?_⟩
      · simp only
        rw [hmax]
        exact kv?_eq_some (hgid.trans ((stateAt_gid gid log _).trans (stateAt_gid gid log _).symm))
          rfl rfl (allShards_getElem? _) rfl
      · exact hmax.symm

/-- In every run the state of the server is that of the largest index received, and every shard is
present. -/
theorem migration_replay_agree {f₀ f : Fed (Option Server)} (h₀ : Started codec gid log m₀ f₀)
    (h : Reach (receive codec gid log m₀) Always f₀ f) :
    ∃ sv, f.server = some sv ∧ sv.kv? = some (stateAt gid log f.received) ∧
      ∀ i : Fin NShards, i ∈ sv.shards := by
  obtain ⟨sv, hsv, hkv, -⟩ := h.invariant h₀.agrees fun hs _ hst => hs.step hst
  exact ⟨sv, hsv, hkv, (kv?_spec hkv).2⟩

end

/-- Group 1 gets all shards, a client writes, and group 2 gets half of them. -/
def migrationLog : List Command :=
  [.addConfig ⟨1, fun _ => 1, ∅⟩, .getPutAppend ⟨[0], [7], .append, 0, 5⟩,
    .addConfig ⟨2, fun i => if i.val < 5 then 2 else 1, ∅⟩,
    .deleteShard ⟨[0, 1, 2, 3, 4], 2⟩]

/-- A server that starts with nothing. -/
def freshServer : Fed (Option Server) := ⟨some (.startServer Codec.id 1 none), 0⟩

/-- A command, a snapshot that contains it and two more, and commands again from the first one
on. -/
def replayedMigration : Fed (Option Server) :=
  reached (receive Codec.id 1 migrationLog 0) Always freshServer
    [.command 1, .snapshot 3, .command 1, .command 2, .command 4]

/-- It has all shards then, in the state of the log. -/
theorem replayedMigration_agrees : replayedMigration.received = 4 ∧
    ∃ sv, replayedMigration.server = some sv ∧
      sv.kv? = some (stateAt 1 migrationLog replayedMigration.received) ∧
      ∀ i : Fin NShards, i ∈ sv.shards := by
  have hstarted : Started Codec.id 1 migrationLog 0 freshServer := ⟨rfl, .inl ⟨rfl, rfl⟩⟩
  have hreach : Reach (receive Codec.id 1 migrationLog 0) Always freshServer replayedMigration :=
    reach_reached _
  exact ⟨by decide +kernel, migration_replay_agree hstarted hreach⟩

end DistLabs.Shardkv
