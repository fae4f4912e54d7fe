import DistLabs.Porcupine.Parallel

/-!
# Partitions by keys

A store has one object for every key (`Model.product`). A history of its operations is linearizable
if and only if the operations on each key are (`linearizable_product_iff`): orders of the
operations on different keys can be merged into one, since each of them respects the times. So
`KvModel`, which is a model of one value, checks histories of a whole key/value store.
-/

namespace DistLabs.Porcupine

open Lib

variable {σ ι ο κ : Type} [DecidableEq κ]

/-- An object for every key; an operation is for the object of its key. -/
def Model.product (key : ι → κ) (model : Model σ ι ο) : Model (κ → σ) ι ο where
  init _ := model.init
  step st inp out :=
    let r := model.step (st (key inp)) inp out
    (r.1, Function.update st (key inp) r.2)
  equal _ _ := false

section
variable {key : ι → κ} {model : Model σ ι ο} {history : List (Operation ι ο)}

/-- A step of the product, at the key of the operation. -/
theorem Model.product_self {st : κ → σ} {inp : ι} {out : ο} :
    ((model.product key).step st inp out).2 (key inp) = (model.step (st (key inp)) inp out).2 :=
  Function.update_self ..

/-- A step of the product leaves the other keys alone. -/
theorem Model.product_of_ne {st : κ → σ} {inp : ι} {out : ο} {k : κ} (hne : k ≠ key inp) :
    ((model.product key).step st inp out).2 k = st k :=
  Function.update_of_ne hne ..

/-- Operations are accepted if those on each key are. -/
theorem accepts_product {st : κ → σ} {ops : List (Operation ι ο)} :
    (model.product key).Accepts st ops ↔
    ∀ k, model.Accepts (st k) (ops.filter (key ·.input = k)) := by
  induction ops generalizing st with
  | nil => exact iff_of_true trivial fun _ => trivial
  | cons op ops ih =>
    rw [Model.Accepts, ih]
    constructor
    · rintro ⟨hok, hrest⟩ k
      have hafter := hrest k
      rcases eq_or_ne k (key op.input) with rfl | hne
      · rw [Model.product_self] at hafter
        rw [List.filter_cons_of_pos (by simp)]
        exact ⟨hok, hafter⟩
      · rw [Model.product_of_ne hne] at hafter
        rwa [List.filter_cons_of_neg (by simpa using hne.symm)]
    · intro hall
      have hop := hall (key op.input)
      rw [List.filter_cons_of_pos (by simp)] at hop
      refine ⟨hop.1, fun k => ?_⟩
      rcases eq_or_ne k (key op.input) with rfl | hne
      · rw [Model.product_self]
        exact hop.2
      · have hrest := hall k
        rw [List.filter_cons_of_neg (by simpa using hne.symm)] at hrest
        rwa [Model.product_of_ne hne]

/-- Locality: a history is linearizable if the operations on each key are. -/
theorem linearizable_product_iff (htimes : ∀ op ∈ history, op.call ≤ op.ret) :
    (model.product key).Linearizable history ↔
      ∀ k, model.Linearizable (history.filter (key ·.input = k)) := by
  constructor
  · rintro ⟨order, hperm, horderly, haccepts⟩ k
    exact ⟨order.filter (key ·.input = k), hperm.filter _, horderly.filter _,
      accepts_product.1 haccepts k⟩
  · intro hall
    choose order hperm horderly haccepts using hall
    have hmem : ∀ k, ∀ op ∈ order k, op ∈ history ∧ key op.input = k := fun k op hop => by
      simpa using (hperm k).subset hop
    obtain ⟨l, hl, hlperm, hfilter⟩ :=
      exists_interleaving (List.nodup_dedup (history.map (key ·.input)))
      (fun k op hop => (hmem k op hop).2) (fun k op hop => htimes op (hmem k op hop).1) horderly
    have hhistory : l.Perm history :=
      hlperm.trans ((List.Perm.flatMap_left _ fun k _ => hperm k).trans
      (flatMap_filter_perm (List.nodup_dedup _) fun op hop =>
        List.mem_dedup.2 (List.mem_map_of_mem (f := (key ·.input)) hop)))
    refine ⟨l, hhistory, hl, accepts_product.2 fun k => ?_⟩
    by_cases hk : k ∈ (history.map (key ·.input)).dedup
    · rw [hfilter k hk]
      exact haccepts k
    · -- no operation has this key
      rw [List.filter_eq_nil_iff.2 fun op hop heq => hk ?_]
      · trivial
      · rw [List.mem_dedup, ← of_decide_eq_true heq]
        exact List.mem_map_of_mem (f := (key ·.input)) (hhistory.subset hop)

end

/-! ## Histories of a key/value store -/

/-- The model of a whole key/value store. -/
def KvModel.store : Model (GoString → GoString) KvInput KvOutput := KvModel.product KvInput.key

section
variable {history : List (Operation KvInput KvOutput)} {s : EntrySort KvInput KvOutput}
  {verbose : Bool}
  {timeout : Int}

/-- A history is that of a store exactly if its parts are those of single values. -/
theorem KvModel.linearizable_store_iff (htimes : ∀ op ∈ history, op.call ≤ op.ret) :
    KvModel.store.Linearizable history ↔
      ∀ subhistory ∈ KvModel.partition history, KvModel.Linearizable subhistory := by
  rw [KvModel.store, linearizable_product_iff htimes, KvModel.partition_eq, List.forall_mem_map]
  constructor
  · exact fun hall k _ => hall k
  · intro hall k
    by_cases hk : k ∈ (KvModel.group history).keys
    · exact hall k hk
    · -- no operation has this key
      rw [List.filter_eq_nil_iff.2 fun op hop heq =>
        hk (KvModel.mem_keys_group.2 ⟨op, hop, of_decide_eq_true heq⟩)]
      exact ⟨[], .refl _, .nil, trivial⟩

/-- The parts of a history have its operations. -/
theorem KvModel.partition_times (htimes : ∀ op ∈ history, op.call ≤ op.ret) :
    ∀ subhistory ∈ KvModel.partition history, ∀ op ∈ subhistory, op.call ≤ op.ret := by
  rw [KvModel.partition_eq, List.forall_mem_map]
  exact fun k _ op hop => htimes op (List.mem_filter.1 hop).1

/-- Only the empty history has no parts. -/
theorem KvModel.partition_eq_nil : KvModel.partition history = [] ↔ history = [] := by
  rw [KvModel.partition_eq, List.map_eq_nil_iff]
  constructor
  · intro hnil
    refine List.eq_nil_iff_forall_not_mem.2 fun op hop => ?_
    have hkey := KvModel.mem_keys_group.2 ⟨op, hop, rfl⟩
    rw [hnil] at hkey
    exact List.not_mem_nil hkey
  · rintro rfl
    refine List.eq_nil_iff_forall_not_mem.2 fun k hk => ?_
    obtain ⟨op, hop, -⟩ := KvModel.mem_keys_group.1 hk
    exact List.not_mem_nil hop

/-- `checkOperations` can return if there are operations. -/
theorem exists_checkOperations (htimes : ∀ op ∈ history, op.call ≤ op.ret)
    (hne : history ≠ [] ∨ 0 < timeout) :
    ∃ result info, checkOperations s KvModel history verbose timeout result info := by
  rw [← KvModel.partition_eq_nil.ne] at hne
  have h := wellFormed_partitions (s := s) (KvModel.partition_times htimes)
  obtain ⟨costs, hstart, -⟩ : ∃ costs,
      Parallel.Sound KvModel _ timeout (.start KvModel _) costs ∧ _ :=
    Parallel.sound_start h
  obtain ⟨es, p, result, info, hrun, hphase⟩ :=
    hstart.exists_return h KvModel.equalOk (hne.imp_left fun hne => by simpa using hne)
  exact ⟨result, info, es, p, hrun, hphase⟩

/-- What `checkOperations` returns is right. -/
theorem verdict_of_checkOperations (htimes : ∀ op ∈ history, op.call ≤ op.ret)
    {result : CheckResult}
    {info : List (List (List Nat))}
    (h : checkOperations s KvModel history verbose timeout result info) :
    (result = .ok → KvModel.store.Linearizable history) ∧
      (result = .illegal → ¬ KvModel.store.Linearizable history) ∧
        (result = .unknown → 0 < timeout) := by
  have hparts := KvModel.partition_times htimes
  obtain ⟨es, p, hrun, hphase⟩ := h
  obtain ⟨costs, hs, -⟩ := exists_sound hparts KvModel.equalOk hrun
  obtain ⟨hok, hillegal, hunknown, -⟩ := hs.verdictOK hparts hphase
  rw [KvModel.linearizable_store_iff htimes]
  refine ⟨hok, fun hresult hall => ?_, hunknown⟩
  obtain ⟨subhistory, hsub, hnot⟩ := hillegal hresult
  exact hnot (hall subhistory hsub)

/-- `checkOperations` with `KvModel` can return if there are operations or a timeout. It returns Ok
only for histories of a key/value store, and Illegal only for others. -/
theorem checkOperations_right (htimes : ∀ op ∈ history, op.call ≤ op.ret) :
    ((∃ result info, checkOperations s KvModel history verbose timeout result info) ↔
      history ≠ [] ∨ 0 < timeout) ∧
      ∀ result info, checkOperations s KvModel history verbose timeout result info →
        (result = .ok → KvModel.store.Linearizable history) ∧
        (result = .illegal → ¬ KvModel.store.Linearizable history) ∧
          (result = .unknown → 0 < timeout) := by
  refine ⟨⟨?_, exists_checkOperations htimes⟩, fun result info =>
    verdict_of_checkOperations htimes⟩
  rintro ⟨result, info, es, p, hrun, hphase⟩
  by_contra hnot
  rw [not_or, not_not, ← KvModel.partition_eq_nil] at hnot
  simp only [KvModel, hnot.1, List.map_nil] at hrun
  cases es with
  | nil =>
    cases hrun
    cases hphase
  | cons e es =>
    rw [runAll, Parallel.step_nil hnot.2] at hrun
    cases hrun

end

/-- A value is written while it is read. -/
theorem checkOperations_right_writeWhileRead :
    (∃ result info, checkOperations byTime KvModel writeWhileRead true 0 result info) ∧
      ∀ result info, checkOperations byTime KvModel writeWhileRead true 0 result info →
        (result = .ok → KvModel.store.Linearizable writeWhileRead) ∧
        (result = .illegal → ¬ KvModel.store.Linearizable writeWhileRead) ∧
          (result = .unknown → (0 : Int) < 0) := by
  have h := @checkOperations_right writeWhileRead byTime true 0 (by decide)
  exact ⟨h.1.2 (.inl (by decide)), h.2⟩

end DistLabs.Porcupine
