import DistLabs.Lib.Copies
import DistLabs.Shardctrler.Configs

/-!
# Executing a log

A replica of the controller executes the committed log, with its own order of every loop over a
map. All replicas get the same history, table of requests and answers (`replicas_agree`). Copies of
operations are skipped, so that the history is that of the first copies (`history_once`).
-/

namespace DistLabs.Shardctrler

open Lib

/-- Execute a log: the state and the values of `op.Configure`. The operation with `n` others behind
it visits maps in the orders `o n`. -/
def ShardCtrler.executeAll (o : Nat → Orders) :
    ShardCtrler → List Op → Option (ShardCtrler × List Config)
  | sc, [] => some (sc, [])
  | sc, op :: log => do
    let (sc, configure) ← sc.execute (o log.length) op
    let (sc, configures) ← sc.executeAll o log
    return (sc, configure :: configures)

/-- Replaying a log leads to the same state in any order of the loops. -/
theorem executeAll_orders (o o' : Nat → Orders) (sc : ShardCtrler) (log : List Op) :
    sc.executeAll o log = sc.executeAll o' log := by
  induction log generalizing sc with
  | nil => rfl
  | cons op log ih =>
    simp only [ShardCtrler.executeAll, sc.execute_orders (o log.length) (o' log.length), ih]

/-- **Replicas agree** on the history, the table of requests and the answers. -/
theorem replicas_agree (o o' : Nat → Orders) (log : List Op) :
    ShardCtrler.init.executeAll o log = ShardCtrler.init.executeAll o' log :=
  executeAll_orders o o' .init log

/-! ## One more operation -/

section
variable {sc : ShardCtrler} {log : List Op} {op : Op} {o : Nat → Orders}
  {p : ShardCtrler × List Config}

/-- Replaying a log with one more operation. -/
theorem executeAll_concat (o : Nat → Orders) (sc : ShardCtrler) (log : List Op) (op : Op) :
    sc.executeAll o (log ++ [op]) = (sc.executeAll o log).bind fun p =>
      (p.1.execute .increasing op).map fun q => (q.1, p.2 ++ [q.2]) := by
  induction log generalizing sc with
  | nil =>
    simp only [List.nil_append, ShardCtrler.executeAll, sc.execute_orders _ .increasing]
    cases hop : sc.execute .increasing op <;> simp [hop]
  | cons op' log ih =>
    simp only [List.cons_append, ShardCtrler.executeAll, ih]
    rw [sc.execute_orders (o (log ++ [op]).length) (o log.length)]
    cases sc.execute (o log.length) op' with
    | none => rfl
    | some q =>
      simp only [Option.bind_eq_bind, Option.bind_some]
      cases q.1.executeAll o log with
      | none => rfl
      | some q' =>
        simp only [Option.bind_some]
        cases hop : q'.1.execute .increasing op <;> simp [hop]

/-- A log has been executed if its beginning has been, and the last operation can be. -/
theorem executeAll_concat_some (h : sc.executeAll o (log ++ [op]) = some p) :
    ∃ q r, sc.executeAll o log = some q ∧ q.1.execute .increasing op = some r ∧
      p = (r.1, q.2 ++ [r.2]) := by
  rw [executeAll_concat] at h
  obtain ⟨q, hq, h⟩ := Option.bind_eq_some_iff.1 h
  obtain ⟨r, hr, rfl⟩ := Option.map_eq_some_iff.1 h
  exact ⟨q, r, hq, hr, rfl⟩

end

/-! ## Copies -/

/-- What identifies an operation. -/
def Op.id (op : Op) : Int × Int := (op.clientId, op.requestId)

section
variable {sc sc' : ShardCtrler} {o : Orders} {op : Op}

/-- `updateLastRequest` enters the request into the table. -/
theorem updateLastRequest_table (sc : ShardCtrler) (op : Op) :
    (sc.updateLastRequest op).lastRequestMap =
    enterRequest sc.lastRequestMap op.clientId op.requestId := by
  unfold ShardCtrler.updateLastRequest enterRequest
  cases sc.lastRequestMap[op.clientId]? with
  | none => rfl
  | some last =>
    dsimp only
    split <;> rfl

/-- Every operation that is executed enters its request into the table. -/
theorem execute_lastRequestMap {p : ShardCtrler × Config} (h : sc.execute o op = some p) :
    p.1.lastRequestMap = enterRequest sc.lastRequestMap op.clientId op.requestId := by
  rcases execute_cases h with ⟨hknown, heq⟩ | ⟨-, sc', heq, ⟨-, rfl⟩ | hproc⟩
  · rw [heq]
    exact (enterRequest_of_known hknown).symm
  · rw [heq, updateLastRequest_table]
  · rw [heq, updateLastRequest_table, hproc.lastRequestMap_eq]

/-- The history grows by one if an operation is not known and not a query. -/
theorem execute_length {p : ShardCtrler × Config} (h : sc.execute o op = some p) :
    p.1.configs.length = sc.configs.length +
      if ¬ sc.isInvalidRequest op.clientId op.requestId ∧ ¬ op.isQuery then 1 else 0 := by
  rcases execute_cases h with ⟨hknown, heq⟩ | ⟨hnew, sc', heq, ⟨hquery, rfl⟩ | hproc⟩
  · rw [heq, if_neg fun hno => hno.1 hknown]
    rfl
  · rw [heq, updateLastRequest_configs, if_neg fun hno => hno.2 hquery]
    rfl
  · obtain ⟨_, _, -, -, hconfigs⟩ := hproc.appends
    rw [heq, updateLastRequest_configs, hconfigs, List.length_append,
      if_pos ⟨hnew, hproc.not_isQuery⟩]
    rfl

end

section
variable {o o' : Nat → Orders} {log l : List Op} {p : ShardCtrler × List Config}

/-- A replayed log leads to a state with a right history. -/
theorem executeAll_history (h : ShardCtrler.init.executeAll o log = some p) : History p.1 := by
  induction log using List.reverseRecOn generalizing p with
  | nil =>
    cases h
    exact history_init
  | append_singleton log op ih =>
    obtain ⟨q, r, hq, hr, rfl⟩ := executeAll_concat_some h
    exact (ih hq).execute hr

/-- Replaying a log makes the table of its requests. -/
theorem executeAll_lastRequestMap (h : ShardCtrler.init.executeAll o log = some p) :
    p.1.lastRequestMap = requestTable (log.map Op.id) := by
  induction log using List.reverseRecOn generalizing p with
  | nil =>
    cases h
    rfl
  | append_singleton log op ih =>
    obtain ⟨q, r, hq, hr, rfl⟩ := executeAll_concat_some h
    rw [List.map_append, List.map_singleton, requestTable_concat, ← ih hq]
    exact execute_lastRequestMap hr

/-- The next operation is skipped if and only if the log has a copy of it. -/
theorem isInvalidRequest_iff (h : ShardCtrler.init.executeAll o log = some p) {op : Op}
    (horder : FirstsInOrder Op.id (log ++ [op])) :
    p.1.isInvalidRequest op.clientId op.requestId ↔ op.id ∈ log.map Op.id := by
  rw [ShardCtrler.isInvalidRequest, executeAll_lastRequestMap h]
  exact known_iff horder

/-- Executing the first copies leads to the same state. -/
theorem executeAll_firstCopies (horder : FirstsInOrder Op.id log)
    (h : ShardCtrler.init.executeAll o log = some p) :
    ∃ configures,
      ShardCtrler.init.executeAll o (firstCopies Op.id log) = some (p.1, configures) := by
  induction log using List.reverseRecOn generalizing p with
  | nil => exact ⟨_, h⟩
  | append_singleton log op ih =>
    obtain ⟨q, r, hq, hr, rfl⟩ := executeAll_concat_some h
    obtain ⟨configures, hfirst⟩ := ih horder.of_concat hq
    have hknown := isInvalidRequest_iff hq horder
    rw [firstCopies_concat]
    split
    · next hop =>
      rcases execute_cases hr with ⟨-, heq⟩ | ⟨hnew, -⟩
      · exact ⟨configures, by rw [hfirst, heq]⟩
      · exact absurd (hknown.2 hop) hnew
    · refine ⟨configures ++ [r.2], ?_⟩
      rw [executeAll_concat, hfirst, Option.bind_some, hr]
      rfl

/-- There is one config for every first copy that is not a query. -/
theorem executeAll_length (horder : FirstsInOrder Op.id log)
    (h : ShardCtrler.init.executeAll o log = some p) :
    p.1.configs.length = ((firstCopies Op.id log).filter (!·.isQuery)).length + 1 := by
  induction log using List.reverseRecOn generalizing p with
  | nil =>
    cases h
    rfl
  | append_singleton log op ih =>
    obtain ⟨q, r, hq, hr, rfl⟩ := executeAll_concat_some h
    have hknown := isInvalidRequest_iff hq horder
    rw [execute_length hr, ih horder.of_concat hq, firstCopies_concat]
    by_cases hop : op.id ∈ log.map Op.id
    · rw [if_neg fun hno => hno.1 (hknown.2 hop), if_pos hop]
    · have hnew := mt hknown.1 hop
      rw [if_neg hop, List.filter_append, List.length_append]
      cases hquery : op.isQuery with
      | true => simp [hquery]
      | false => simp [hquery, hnew]

/-- A log is executed from the beginning on. -/
theorem executeAll_prefix (hl : l <+: log) (h : ShardCtrler.init.executeAll o log = some p) :
    ∃ q, ShardCtrler.init.executeAll o' l = some q ∧ q.1.configs <+: p.1.configs := by
  obtain ⟨l', rfl⟩ := hl
  rw [executeAll_orders o' o]
  induction l' using List.reverseRecOn generalizing p with
  | nil =>
    rw [List.append_nil] at h
    exact ⟨p, h, List.prefix_refl _⟩
  | append_singleton l' op ih =>
    rw [← List.append_assoc] at h
    obtain ⟨q, r, hq, hr, rfl⟩ := executeAll_concat_some h
    obtain ⟨q', hq', hgrow⟩ := ih hq
    exact ⟨q', hq', hgrow.trans (configs_grow hr)⟩

/-- A log can be replayed if all its operations are in range. -/
theorem executeAll_isSome (hrange : ∀ op ∈ log, op.InRange) :
    (ShardCtrler.init.executeAll o log).isSome := by
  induction log using List.reverseRecOn with
  | nil => rfl
  | append_singleton log op ih =>
    obtain ⟨p, hp⟩ := Option.isSome_iff_exists.1
      (ih fun op' hop' => hrange op' (List.mem_append_left _ hop'))
    obtain ⟨last, hlast⟩ := (executeAll_history hp).exists_last
    have hop := hrange op (List.mem_append_right _ (List.mem_singleton_self op))
    rw [executeAll_concat, hp, Option.bind_some, Option.isSome_map]
    exact execute_isSome .increasing hlast hop

/-- If the log has copies only, the first copies have all ids of the operations that make
configs. -/
theorem length_firstCopies (hcopies : ∀ op ∈ log, ∀ op' ∈ log, op.id = op'.id → op = op') :
    ((firstCopies Op.id log).filter (!·.isQuery)).length =
      ((log.filter (!·.isQuery)).map Op.id).toFinset.card := by
  have hnodup : (((firstCopies Op.id log).filter (!·.isQuery)).map Op.id).Nodup :=
    nodup_firstCopies.sublist (List.filter_sublist.map _)
  rw [← List.length_map Op.id, ← List.toFinset_card_of_nodup hnodup]
  congr 1
  ext i
  simp only [List.mem_toFinset, List.mem_map, List.mem_filter]
  constructor
  · rintro ⟨op, ⟨hop, hquery⟩, rfl⟩
    exact ⟨op, ⟨firstCopies_subset hop, hquery⟩, rfl⟩
  · rintro ⟨op, ⟨hop, hquery⟩, rfl⟩
    obtain ⟨op', hop', heq⟩ :=
      List.mem_map.1 (mem_map_firstCopies.2 (List.mem_map_of_mem (f := Op.id) hop))
    rw [hcopies op' (firstCopies_subset hop') op hop heq] at hop'
    exact ⟨op, ⟨hop', hquery⟩, rfl⟩

end

/-- **The history is that of the first copies**: every operation that makes a config makes one, and
what has been appended stays. -/
theorem history_once (log : List Op) (hcopies : ∀ op ∈ log, ∀ op' ∈ log, op.id = op'.id → op = op')
    (horder : FirstsInOrder Op.id log) (o : Nat → Orders) :
    ((∀ op ∈ log, op.InRange) → (ShardCtrler.init.executeAll o log).isSome) ∧
      ∀ sc configures, ShardCtrler.init.executeAll o log = some (sc, configures) →
        (∀ (k : Nat) (config : Config), sc.configs[k]? = some config → config.num = k) ∧
        sc.configs.length = ((log.filter (!·.isQuery)).map Op.id).toFinset.card + 1 ∧
        (∀ o', ∃ configures',
          ShardCtrler.init.executeAll o' (firstCopies Op.id log) = some (sc, configures')) ∧
        ∀ o' l, l <+: log → ∃ sc' configures',
          ShardCtrler.init.executeAll o' l = some (sc', configures') ∧
            sc'.configs <+: sc.configs := by
  refine ⟨executeAll_isSome, fun sc configures h => ⟨(executeAll_history h).num, ?_, fun o' => ?_,
    fun o' l hl => ?_⟩⟩
  · rw [executeAll_length horder h, length_firstCopies hcopies]
  · rw [executeAll_orders o' o]
    exact executeAll_firstCopies horder h
  · obtain ⟨q, hq, hgrow⟩ := executeAll_prefix hl h
    exact ⟨q.1, q.2, hq, hgrow⟩

/-- Two administrators, with a copy of a `Join` after the `Leave` that follows it. -/
def copiedLog : List Op :=
  [⟨1, 0, .join (Std.ExtTreeMap.insert ∅ 1 ["a"])⟩, ⟨2, 0, .query (-1)⟩,
    ⟨1, 0, .join (Std.ExtTreeMap.insert ∅ 1 ["a"])⟩, ⟨2, 1, .move 3 1⟩, ⟨1, 1, .leave [1]⟩,
    ⟨1, 0, .join (Std.ExtTreeMap.insert ∅ 1 ["a"])⟩, ⟨2, 0, .query (-1)⟩]

/-- Of every operation one copy is executed. -/
theorem history_once_copiedLog : Successive Op.id copiedLog ∧ ∃ sc configures,
    ShardCtrler.init.executeAll (fun _ => .increasing) copiedLog = some (sc, configures) ∧
      sc.configs.length = ((copiedLog.filter (!·.isQuery)).map Op.id).toFinset.card + 1 ∧
      (∀ o', ∃ configures',
        ShardCtrler.init.executeAll o' (firstCopies Op.id copiedLog) =
          some (sc, configures')) := by
  have h : Successive Op.id copiedLog := by decide
  have hcopies : ∀ op ∈ copiedLog, ∀ op' ∈ copiedLog, op.id = op'.id → op = op' := by decide
  obtain ⟨hsome, hall⟩ := history_once copiedLog hcopies h.inOrder fun _ => .increasing
  obtain ⟨⟨sc, configures⟩, hex⟩ := Option.isSome_iff_exists.1 (hsome (by decide))
  obtain ⟨-, hlen, hfirst, -⟩ := hall sc configures hex
  exact ⟨h, sc, configures, hex, hlen, hfirst⟩

end DistLabs.Shardctrler
