import DistLabs.Lib.Replica
import DistLabs.Shardctrler.Server

/-!
# The history of configs

The controller only appends to its history, one config at a time, and the number of a config is its
place in the history (`History`).
-/

namespace DistLabs.Shardctrler

open Lib

variable {sc sc' : ShardCtrler} {o : Orders}

/-- The history of a controller: config 0 is the zero value, and every config has its own
number. -/
structure History (sc : ShardCtrler) : Prop where
  zero : sc.configs[0]? = some .zero
  num : ∀ (n : Nat) (config : Config), sc.configs[n]? = some config → config.num = n

/-- What `processJoin`, `processLeave` and `processMove` do to the history. -/
def Appends (sc sc' : ShardCtrler) : Prop :=
  ∃ last config, sc.configs.getLast? = some last ∧ config.num = last.num + 1 ∧
    sc'.configs = sc.configs ++ [config]

/-- Entering a request leaves the configs alone. -/
theorem updateLastRequest_configs (sc : ShardCtrler) (op : Op) :
    (sc.updateLastRequest op).configs = sc.configs := by
  unfold ShardCtrler.updateLastRequest
  split
  · split <;> rfl
  · rfl

/-- A request that makes a new config has been processed. -/
inductive Processed (o : Orders) (sc : ShardCtrler) : Request → ShardCtrler → Prop
  | join {servers : GoMap Gid (List String)} {sc' : ShardCtrler}
    (h : sc.processJoin o servers = some sc') :
      Processed o sc (.join servers) sc'
  | leave {gids : List Gid} {sc' : ShardCtrler} (h : sc.processLeave o gids = some sc') :
      Processed o sc (.leave gids) sc'
  | move {shard : Int} {gid : Gid} {sc' : ShardCtrler}
    (h : sc.processMove o shard gid = some sc') :
      Processed o sc (.move shard gid) sc'

/-- A new config is appended, and nothing else changes. -/
theorem Processed.addConfig {r : Request} (h : Processed o sc r sc') :
    ∃ last groups shards, sc.configs.getLast? = some last ∧
      sc' = sc.addConfig last groups shards := by
  cases h with
  | join h =>
    simp only [ShardCtrler.processJoin, Option.bind_eq_bind, Option.bind_eq_some_iff] at h
    obtain ⟨last, hlast, shards, -, h⟩ := h
    cases h
    exact ⟨last, _, shards, hlast, rfl⟩
  | leave h =>
    simp only [ShardCtrler.processLeave, Option.bind_eq_bind, Option.bind_eq_some_iff] at h
    obtain ⟨last, hlast, shards, -, h⟩ := h
    cases h
    exact ⟨last, _, shards, hlast, rfl⟩
  | move h =>
    simp only [ShardCtrler.processMove, Option.bind_eq_bind, Option.bind_eq_some_iff] at h
    obtain ⟨last, hlast, h⟩ := h
    split at h
    · cases h
      exact ⟨last, _, _, hlast, rfl⟩
    · cases h

/-- `Join`, `Leave` and `Move` append one config. -/
theorem Processed.appends {r : Request} (h : Processed o sc r sc') : Appends sc sc' := by
  obtain ⟨last, groups, shards, hlast, rfl⟩ := h.addConfig
  exact ⟨last, _, hlast, rfl, rfl⟩

/-- `Join`, `Leave` and `Move` leave the table of requests alone. -/
theorem Processed.lastRequestMap_eq {r : Request} (h : Processed o sc r sc') :
    sc'.lastRequestMap = sc.lastRequestMap := by
  obtain ⟨last, groups, shards, -, rfl⟩ := h.addConfig
  rfl

/-- What appends a config is not a `Query`. -/
theorem Processed.not_isQuery {op : Op} (h : Processed o sc op.request sc') : ¬ op.isQuery := by
  unfold Op.isQuery
  generalize op.request = r at h
  cases h <;> exact Bool.false_ne_true

/-- What `execute` does: nothing, or what the operation asks for, which it then enters in the table
of requests. -/
theorem execute_cases {op : Op} {p : ShardCtrler × Config} (h : sc.execute o op = some p) :
    sc.isInvalidRequest op.clientId op.requestId ∧ p.1 = sc ∨
      ¬ sc.isInvalidRequest op.clientId op.requestId ∧ ∃ sc', p.1 = sc'.updateLastRequest op ∧
        (op.isQuery ∧ sc' = sc ∨ Processed o sc op.request sc') := by
  unfold ShardCtrler.execute at h
  split at h
  · next hold =>
    cases h
    exact .inl ⟨hold, rfl⟩
  next hnew =>
  split at h
  all_goals
    rename_i hop
    rw [Option.bind_eq_bind, Option.bind_eq_some_iff] at h
    obtain ⟨q, hq, h⟩ := h
    cases h
    obtain ⟨sc', hsc', rfl⟩ := Option.map_eq_some_iff.1 hq
  · exact .inr ⟨hnew, sc', rfl, .inr (hop ▸ .join hsc')⟩
  · exact .inr ⟨hnew, sc', rfl, .inr (hop ▸ .leave hsc')⟩
  · exact .inr ⟨hnew, sc', rfl, .inr (hop ▸ .move hsc')⟩
  · refine .inr ⟨hnew, sc, rfl, .inl ⟨?_, rfl⟩⟩
    rw [Op.isQuery, hop]

/-- `execute` keeps the history or appends a config to it. -/
theorem execute_configs {op : Op} {p : ShardCtrler × Config} (h : sc.execute o op = some p) :
    p.1.configs = sc.configs ∨ Appends sc p.1 := by
  rcases execute_cases h with ⟨-, heq⟩ | ⟨-, sc', heq, ⟨-, rfl⟩ | hproc⟩
  · exact .inl (congrArg _ heq)
  · rw [heq]
    exact .inl (updateLastRequest_configs sc' op)
  · obtain ⟨last, config, hlast, hnum, hconfigs⟩ := hproc.appends
    rw [heq]
    exact .inr ⟨last, config, hlast, hnum, (updateLastRequest_configs sc' op).trans hconfigs⟩

/-- Configs are only appended. -/
theorem configs_grow {op : Op} {p : ShardCtrler × Config}
    (h : sc.execute o op = some p) : sc.configs <+: p.1.configs := by
  rcases execute_configs h with heq | ⟨_, config, -, -, heq⟩
  · rw [heq]
  · rw [heq]
    exact List.prefix_append _ _

/-- The history of the first config is right. -/
theorem history_init : History .init := by
  refine ⟨rfl, fun n config hconfig => ?_⟩
  obtain ⟨hn, rfl⟩ := List.getElem?_eq_some_iff.1 hconfig
  obtain rfl : n = 0 := Nat.lt_one_iff.1 hn
  rfl

namespace History

theorem length_pos (h : History sc) : 0 < sc.configs.length :=
  (List.getElem?_eq_some_iff.1 h.zero).1

theorem exists_last (h : History sc) : ∃ last, sc.configs.getLast? = some last := by
  refine Option.isSome_iff_exists.1 ?_
  rw [List.getLast?_isSome]
  exact List.ne_nil_of_length_pos h.length_pos

/-- The number of the latest config. -/
theorem length_eq (h : History sc) {last : Config} (hlast : sc.configs.getLast? = some last) :
    sc.configs.length = last.num + 1 := by
  have hpos := h.length_pos
  rw [List.getLast?_eq_getElem?] at hlast
  have hnum := h.num _ last hlast
  omega

/-- An operation leads from a right history to a right one. -/
theorem execute {op : Op} {p : ShardCtrler × Config} (h : History sc)
    (hex : sc.execute o op = some p) : History p.1 := by
  rcases execute_configs hex with heq | ⟨last, config, hlast, hnum, heq⟩
  · exact ⟨by rw [heq]; exact h.zero, by rw [heq]; exact h.num⟩
  refine ⟨?_, fun n config' hconfig' => ?_⟩
  · rw [heq, List.getElem?_append_left h.length_pos]
    exact h.zero
  · rw [heq] at hconfig'
    rcases of_getElem?_concat hconfig' with hconfig' | ⟨rfl, rfl⟩
    · exact h.num n config' hconfig'
    · rw [hnum, ← h.length_eq hlast]

/-- A `Query` for a config is answered with it, or with another number. -/
theorem of_processQuery (h : History sc) {n : Nat} {config : Config}
    (hq : sc.processQuery n = some config) (hnum : config.num = n) :
    sc.configs[n]? = some config := by
  unfold ShardCtrler.processQuery at hq
  split at hq
  · have hlen := h.length_eq hq
    rw [List.getLast?_eq_getElem?] at hq
    rw [← hq]
    congr 1
    omega
  · split at hq
    · omega
    · exact hq

end History

/-- The configs that there are can be queried. -/
theorem processQuery_of_getElem? {n : Nat} {config : Config} (h : sc.configs[n]? = some config) :
    sc.processQuery n = some config := by
  have hn := (List.getElem?_eq_some_iff.1 h).1
  unfold ShardCtrler.processQuery
  rw [if_neg (by omega), if_neg (by omega)]
  exact h

end DistLabs.Shardctrler
