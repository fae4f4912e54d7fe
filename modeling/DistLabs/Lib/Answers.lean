import DistLabs.Lib.Service

/-!
# Where the answers of a service come from

What a clerk gets is the reply to its own operation (`Inv`). The argument follows a result from the
applier to the clerk. The applier sends the result of the entry at an index to the slot of that
index only in the term of the entry, and it does so once. A handler that waits there got the index
before the entry was applied, so its term is not larger (`Sent`); it uses the result only if its
term is still that of the server, so its term is not smaller either. An entry with the index and
the term of a `Start` is the operation that was started.

Facts about a service are kept by later steps because what they speak of only grows (`Grows`).
-/

namespace DistLabs.Lib

namespace Service

variable {σ κ α ρ : Type} {m : Machine σ κ α ρ} {net net' : Service σ κ α ρ} {a : ServiceAction κ}

/-! ## Clerks -/

/-- An operation was called. -/
def Called (m : Machine σ κ α ρ) (net : Service σ κ α ρ) (op : κ) : Prop :=
  ∃ t, (.call (m.id op) op, t) ∈ net.history

/-- The history of the clerks: times do not decrease, a clerk has made the calls before the one
with its `requestId`, they have returned, and it may be waiting for that one. -/
structure Clients (m : Machine σ κ α ρ) (net : Service σ κ α ρ) : Prop where
  times : net.history.Pairwise (·.2 ≤ ·.2)
  time_le : ∀ x ∈ net.history, x.2 ≤ net.log.length
  call : ∀ i op t, (.call i op, t) ∈ net.history → i = m.id op ∧
    (i.2 < (net.clerks i.1).requestId ∨ (net.clerks i.1).pending = some op)
  ret : ∀ i res t, (.ret i res, t) ∈ net.history → i.2 < (net.clerks i.1).requestId
  pending : ∀ c op, (net.clerks c).pending = some op →
    m.id op = (c, (net.clerks c).requestId) ∧ net.Called m op
  returned : ∀ i op t, (.call i op, t) ∈ net.history → i.2 < (net.clerks i.1).requestId →
    ∃ res t', (.ret i res, t') ∈ net.history
  sequential : ∀ c r r' res op t t', (.ret (c, r) res, t) ∈ net.history →
    (.call (c, r') op, t') ∈ net.history → r < r' → t ≤ t'
  call_unique : ∀ i op op' t t', (.call i op, t) ∈ net.history → (.call i op', t') ∈ net.history →
    op = op' ∧ t = t'
  ret_unique : ∀ i res res' t t', (.ret i res, t) ∈ net.history → (.ret i res', t') ∈ net.history →
    res = res' ∧ t = t'

/-- Nobody has called anything in the beginning. -/
theorem clients_init : Clients m (init m) where
  times := .nil
  time_le _ hx := by cases hx
  call _ _ _ h := by cases h
  ret _ _ _ h := by cases h
  pending _ _ h := by cases h
  returned _ _ _ h := by cases h
  sequential _ _ _ _ _ _ _ h := by cases h
  call_unique _ _ _ _ _ h := by cases h
  ret_unique _ _ _ _ _ h := by cases h

/-- Steps that neither record nor touch the clerks are none of the clients' business. -/
theorem Clients.frame (h : Clients m net) (hhistory : net'.history = net.history)
    (hclerks : net'.clerks = net.clerks) (hlog : net.log.length ≤ net'.log.length) :
    Clients m net' := by
  obtain ⟨log, starts, servers, chans, handlers, clerks, replies, history⟩ := net'
  cases hhistory
  cases hclerks
  exact { h with time_le := fun x hx => (h.time_le x hx).trans hlog }

section
variable {i i' : Int × Int} {op op' : κ} {res res' : ρ} {t : Nat}

/-- The calls of a history after a call. -/
@[simp] theorem call_mem_record_call : (.call i op, t) ∈ (net.record (.call i' op')).history ↔
    (.call i op, t) ∈ net.history ∨ i = i' ∧ op = op' ∧ t = net.log.length := by
  simp [record, and_assoc]

/-- The returns of a history after a call. -/
@[simp] theorem ret_mem_record_call : (.ret i res, t) ∈ (net.record (.call i' op')).history ↔
    (.ret i res, t) ∈ net.history := by
  simp [record]

/-- The calls of a history after a return. -/
@[simp] theorem call_mem_record_ret : (.call i op, t) ∈ (net.record (.ret i' res')).history ↔
    (.call i op, t) ∈ net.history := by
  simp [record]

/-- The returns of a history after a return. -/
@[simp] theorem ret_mem_record_ret : (.ret i res, t) ∈ (net.record (.ret i' res')).history ↔
    (.ret i res, t) ∈ net.history ∨ i = i' ∧ res = res' ∧ t = net.log.length := by
  simp [record, and_assoc]

end

/-- A call is recorded. -/
theorem Clients.recordCall (h : Clients m net) {op : κ}
    (hnone : (net.clerks (m.clientId op)).pending = none)
    (hid : m.requestId op = (net.clerks (m.clientId op)).requestId) :
    Clients m ((net.setClerk (m.clientId op) ⟨m.requestId op, some op⟩).record
      (.call (m.id op) op)) := by
  have hclerk : ∀ c, c ≠ m.clientId op →
      Function.update net.clerks (m.clientId op) ⟨m.requestId op, some op⟩ c = net.clerks c :=
    fun c hc => Function.update_of_ne hc ..
  have hself : Function.update net.clerks (m.clientId op) ⟨m.requestId op, some op⟩ (m.clientId op)
      = ⟨m.requestId op, some op⟩ := Function.update_self ..
  have hreq : ∀ c,
    (Function.update net.clerks (m.clientId op) ⟨m.requestId op, some op⟩ c).requestId
      = (net.clerks c).requestId := by
    intro c
    by_cases hc : c = m.clientId op
    · subst hc
      rw [hself, hid]
    · rw [hclerk c hc]
  have hbelow : ∀ i op' t, (.call i op', t) ∈ net.history → i.1 = m.clientId op →
      i.2 < m.requestId op := by
    intro i op' t hmem hi
    rcases (h.call i op' t hmem).2 with hlt | hpend
    · rw [hid, ← hi]
      exact hlt
    · rw [hi, hnone] at hpend
      cases hpend
  constructor
  case times => exact times_record h.times h.time_le _
  case time_le => exact time_le_record h.time_le _
  case call =>
    intro i op' t hmem
    show _ ∧ (i.2 < (Function.update net.clerks _ _ i.1).requestId ∨
      (Function.update net.clerks _ _ i.1).pending = some op')
    rw [hreq]
    rcases call_mem_record_call.1 hmem with hmem | ⟨rfl, rfl, -⟩
    · refine ⟨(h.call i op' t hmem).1, ?_⟩
      by_cases hi : i.1 = m.clientId op
      · have hlt := hbelow i op' t hmem hi
        rw [hid, ← hi] at hlt
        exact .inl hlt
      · rw [hclerk _ hi]
        exact (h.call i op' t hmem).2
    · exact ⟨rfl, .inr (congrArg ServiceClerk.pending hself)⟩
  case ret =>
    intro i res t hmem
    rw [ret_mem_record_call] at hmem
    show i.2 < (Function.update net.clerks _ _ i.1).requestId
    rw [hreq]
    exact h.ret i res t hmem
  case pending =>
    intro c op' hpend
    show m.id op' = (c, (Function.update net.clerks _ _ c).requestId) ∧ _
    rw [hreq]
    by_cases hc : c = m.clientId op
    · subst hc
      have heq : op = op' :=
        Option.some.inj ((congrArg ServiceClerk.pending hself).symm.trans hpend)
      subst heq
      exact ⟨by rw [← hid]; rfl, _, call_mem_record_call.2 (.inr ⟨rfl, rfl, rfl⟩)⟩
    · obtain ⟨heq, t, hcall⟩ := h.pending c op'
        ((congrArg ServiceClerk.pending (hclerk c hc)).symm.trans hpend)
      exact ⟨heq, t, call_mem_record_call.2 (.inl hcall)⟩
  case returned =>
    intro i op' t hmem hlt
    have hlt' : i.2 < (net.clerks i.1).requestId := hreq i.1 ▸ hlt
    rcases call_mem_record_call.1 hmem with hmem | ⟨rfl, rfl, -⟩
    · obtain ⟨res, t', hret⟩ := h.returned i op' t hmem hlt'
      exact ⟨res, t', ret_mem_record_call.2 hret⟩
    · exact absurd hid hlt'.ne
  case sequential =>
    intro c r r' res op' t t' hret hcall hlt
    rw [ret_mem_record_call] at hret
    rcases call_mem_record_call.1 hcall with hcall | ⟨-, -, rfl⟩
    · exact h.sequential c r r' res op' t t' hret hcall hlt
    · exact h.time_le _ hret
  case call_unique =>
    intro i op₁ op₂ t₁ t₂ h₁ h₂
    rcases call_mem_record_call.1 h₁ with h₁ | ⟨rfl, rfl, rfl⟩
    · rcases call_mem_record_call.1 h₂ with h₂ | ⟨rfl, rfl, rfl⟩
      · exact h.call_unique i op₁ op₂ t₁ t₂ h₁ h₂
      · exact absurd (hbelow _ _ _ h₁ rfl) (lt_irrefl _)
    · rcases call_mem_record_call.1 h₂ with h₂ | ⟨-, rfl, rfl⟩
      · exact absurd (hbelow _ _ _ h₂ rfl) (lt_irrefl _)
      · exact ⟨rfl, rfl⟩
  case ret_unique =>
    intro i res₁ res₂ t₁ t₂ h₁ h₂
    rw [ret_mem_record_call] at h₁ h₂
    exact h.ret_unique i res₁ res₂ t₁ t₂ h₁ h₂

/-- A return is recorded. -/
theorem Clients.recordRet (h : Clients m net) {i₀ : Int × Int} {op : κ} (res₀ : ρ)
    (hop : (net.clerks i₀.1).pending = some op) (hid : i₀ = m.id op) :
    Clients m ((net.setClerk i₀.1 { requestId := (net.clerks i₀.1).requestId + 1 }).record
      (.ret i₀ res₀)) := by
  have hnum : i₀.2 = (net.clerks i₀.1).requestId := by
    have heq := (h.pending i₀.1 op hop).1
    rw [← hid] at heq
    exact congrArg Prod.snd heq
  have hself :
    Function.update net.clerks i₀.1 { requestId := (net.clerks i₀.1).requestId + 1 } i₀.1
      = { requestId := (net.clerks i₀.1).requestId + 1 } := Function.update_self ..
  have hclerk : ∀ c, c ≠ i₀.1 → Function.update net.clerks i₀.1
      { requestId := (net.clerks i₀.1).requestId + 1 } c = net.clerks c :=
    fun c hc => Function.update_of_ne hc ..
  have hle : ∀ i op' t, (.call i op', t) ∈ net.history → i.1 = i₀.1 → i.2 ≤ i₀.2 := by
    intro i op' t hmem hi
    obtain ⟨heq, hlt | hpend⟩ := h.call i op' t hmem
    · rw [hi, ← hnum] at hlt
      exact hlt.le
    · rw [hi, hop] at hpend
      cases hpend
      rw [heq, hid]
  constructor
  case times => exact times_record h.times h.time_le _
  case time_le => exact time_le_record h.time_le _
  case call =>
    intro i op' t hmem
    rw [call_mem_record_ret] at hmem
    refine ⟨(h.call i op' t hmem).1, ?_⟩
    show i.2 < (Function.update net.clerks _ _ i.1).requestId ∨
      (Function.update net.clerks _ _ i.1).pending = some op'
    by_cases hi : i.1 = i₀.1
    · have hle' := hle i op' t hmem hi
      rw [hi, hself]
      exact .inl (by simp only; omega)
    · rw [hclerk _ hi]
      exact (h.call i op' t hmem).2
  case ret =>
    intro i res t hmem
    show i.2 < (Function.update net.clerks _ _ i.1).requestId
    rcases ret_mem_record_ret.1 hmem with hmem | ⟨rfl, -, -⟩
    · by_cases hi : i.1 = i₀.1
      · have hlt := h.ret i res t hmem
        rw [hi] at hlt
        rw [hi, hself]
        simp only
        omega
      · rw [hclerk _ hi]
        exact h.ret i res t hmem
    · rw [hself]
      simp only
      omega
  case pending =>
    intro c op' hpend
    by_cases hc : c = i₀.1
    · subst hc
      cases (congrArg ServiceClerk.pending hself).symm.trans hpend
    · obtain ⟨heq, t, hcall⟩ := h.pending c op'
        ((congrArg ServiceClerk.pending (hclerk c hc)).symm.trans hpend)
      refine ⟨?_, t, call_mem_record_ret.2 hcall⟩
      show _ = (c, (Function.update net.clerks _ _ c).requestId)
      rw [hclerk c hc, heq]
  case returned =>
    intro i op' t hmem hlt
    rw [call_mem_record_ret] at hmem
    have hlt' : i.2 < (Function.update net.clerks i₀.1
      { requestId := (net.clerks i₀.1).requestId + 1 } i.1).requestId := hlt
    by_cases hi : i.1 = i₀.1
    · rw [hi, hself] at hlt'
      rcases (Int.lt_add_one_iff.1 hlt').lt_or_eq with hlt'' | heq
      · obtain ⟨res, t', hret⟩ := h.returned i op' t hmem (by rw [hi]; exact hlt'')
        exact ⟨res, t', ret_mem_record_ret.2 (.inl hret)⟩
      · have hii : i = i₀ := Prod.ext hi (heq.trans hnum.symm)
        exact ⟨res₀, _, ret_mem_record_ret.2 (.inr ⟨hii, rfl, rfl⟩)⟩
    · rw [hclerk _ hi] at hlt'
      obtain ⟨res, t', hret⟩ := h.returned i op' t hmem hlt'
      exact ⟨res, t', ret_mem_record_ret.2 (.inl hret)⟩
  case sequential =>
    intro c r r' res op' t t' hret hcall hlt
    rw [call_mem_record_ret] at hcall
    rcases ret_mem_record_ret.1 hret with hret | ⟨heq, -, -⟩
    · exact h.sequential c r r' res op' t t' hret hcall hlt
    · subst heq
      exact absurd (hle _ _ _ hcall rfl) (not_le.2 hlt)
  case call_unique =>
    intro i op₁ op₂ t₁ t₂ h₁ h₂
    rw [call_mem_record_ret] at h₁ h₂
    exact h.call_unique i op₁ op₂ t₁ t₂ h₁ h₂
  case ret_unique =>
    have hnew : ∀ res t, (.ret i₀ res, t) ∈ net.history → False := fun res t hmem =>
      absurd hnum (h.ret i₀ res t hmem).ne
    intro i res₁ res₂ t₁ t₂ h₁ h₂
    rw [ret_mem_record_ret] at h₁ h₂
    rcases h₁ with h₁ | ⟨heq, rfl, rfl⟩
    · rcases h₂ with h₂ | ⟨heq, rfl, rfl⟩
      · exact h.ret_unique i res₁ res₂ t₁ t₂ h₁ h₂
      · exact (hnew _ _ (heq ▸ h₁)).elim
    · rcases h₂ with h₂ | ⟨-, rfl, rfl⟩
      · exact (hnew _ _ (heq ▸ h₂)).elim
      · exact ⟨rfl, rfl⟩

/-- What holds of the clients holds after a step. -/
theorem Clients.step (h : Clients m net) (hst : Steps m net a net') : Clients m net' := by
  cases hst with
  | call hnone hid => exact h.recordCall hnone hid
  | ret _ hop hid => exact h.recordRet _ hop hid
  | commit =>
    refine h.frame rfl rfl ?_
    rw [List.length_append]
    omega
  | _ => exact h.frame rfl rfl le_rfl

/-! ## What only grows -/

/-- `net'` is a later state. A new `Start` has an index that its server has not applied. -/
structure Grows (net net' : Service σ κ α ρ) : Prop where
  log : net.log <+: net'.log
  history : net.history ⊆ net'.history
  starts : net.starts ⊆ net'.starts
  fresh : ∀ st ∈ net'.starts, st ∈ net.starts ∨ (net.servers st.server).applied < st.index
  applied : ∀ s, (net.servers s).applied ≤ (net'.servers s).applied
  term : ∀ s, (net.servers s).currentTerm ≤ (net'.servers s).currentTerm
  chans : ∀ (ch : Nat) (chan : WaitChannel α), net.chans[ch]? = some chan → ∃ chan',
    net'.chans[ch]? = some chan' ∧ chan'.server = chan.server ∧ chan'.index = chan.index

/-- A step that changes neither what Raft knows nor the history. -/
theorem Grows.of_eq (hlog : net'.log = net.log) (hhistory : net'.history = net.history)
    (hstarts : net'.starts = net.starts)
    (hservers : ∀ s, (net.servers s).applied ≤ (net'.servers s).applied ∧
      (net.servers s).currentTerm ≤ (net'.servers s).currentTerm)
    (hchans : ∀ (ch : Nat) (chan : WaitChannel α), net.chans[ch]? = some chan → ∃ chan',
      net'.chans[ch]? = some chan' ∧ chan'.server = chan.server ∧ chan'.index = chan.index) :
    Grows net net' where
  log := hlog ▸ List.prefix_refl _
  history := by rw [hhistory]; exact List.Subset.refl _
  starts := by rw [hstarts]; exact List.Subset.refl _
  fresh st hst := .inl (hstarts ▸ hst)
  applied s := (hservers s).1
  term s := (hservers s).2
  chans := hchans

/-- Channels that do not change keep their server and index. -/
theorem chans_refl (ch : Nat) (chan : WaitChannel α) (h : net.chans[ch]? = some chan) : ∃ chan',
    net.chans[ch]? = some chan' ∧ chan'.server = chan.server ∧ chan'.index = chan.index :=
  ⟨chan, h, rfl, rfl⟩

/-- Only the buffer of a channel changes. -/
theorem chans_set {ch₀ : Nat} {chan₀ : WaitChannel α} (h₀ : net.chans[ch₀]? = some chan₀)
    (buffer : Option α) (ch : Nat) (chan : WaitChannel α) (h : net.chans[ch]? = some chan) :
    ∃ chan', (net.chans.set ch₀ { chan₀ with buffer })[ch]? = some chan' ∧
      chan'.server = chan.server ∧ chan'.index = chan.index := by
  rw [List.getElem?_set]
  split
  · next heq =>
    subst heq
    rw [h₀] at h
    cases h
    rw [if_pos (List.getElem?_eq_some_iff.1 h₀).1]
    exact ⟨_, rfl, rfl, rfl⟩
  · exact ⟨chan, h, rfl, rfl⟩

/-- A server whose `applied` and term grow makes those of all servers grow. -/
theorem servers_update {s₀ : Nat} {sv : ServiceServer σ}
    (happlied : (net.servers s₀).applied ≤ sv.applied)
    (hterm : (net.servers s₀).currentTerm ≤ sv.currentTerm) (s : Nat) :
    (net.servers s).applied ≤ (Function.update net.servers s₀ sv s).applied ∧
      (net.servers s).currentTerm ≤ (Function.update net.servers s₀ sv s).currentTerm := by
  by_cases hs : s = s₀
  · subst hs
    rw [Function.update_self]
    exact ⟨happlied, hterm⟩
  · rw [Function.update_of_ne hs]
    exact ⟨le_rfl, le_rfl⟩

/-- Every step makes the history, the log, the terms and the channels grow. -/
theorem grows_step (hst : Steps m net a net') : Grows net net' := by
  have hrefl : ∀ s, (net.servers s).applied ≤ (net.servers s).applied ∧
      (net.servers s).currentTerm ≤ (net.servers s).currentTerm := fun s => ⟨le_rfl, le_rfl⟩
  cases hst with
  | call | ret =>
    exact ⟨List.prefix_refl _, List.subset_append_left _ _, List.Subset.refl _, fun _ h => .inl h,
      fun _ => le_rfl, fun _ => le_rfl, chans_refl⟩
  | @start h s index op _ hmay =>
    refine ⟨List.prefix_refl _, List.Subset.refl _, List.subset_append_left _ _, fun st hst => ?_,
      fun _ => le_rfl, fun _ => le_rfl, chans_refl⟩
    rcases List.mem_append.1 hst with hst | hst
    · exact .inl hst
    · rw [List.mem_singleton.1 hst]
      exact .inr hmay.1
  | makeSlot =>
    refine .of_eq rfl rfl rfl (servers_update le_rfl le_rfl) fun ch chan hch =>
      ⟨chan, ?_, rfl, rfl⟩
    exact getElem?_grown (List.prefix_append _ _) hch
  | receive _ hch => exact .of_eq rfl rfl rfl hrefl (chans_set hch none)
  | finish => exact .of_eq rfl rfl rfl (servers_update le_rfl le_rfl) chans_refl
  | raft hterm => exact .of_eq rfl rfl rfl (servers_update le_rfl hterm) chans_refl
  | commit =>
    exact ⟨List.prefix_append _ _, List.Subset.refl _, List.Subset.refl _, fun _ h => .inl h,
      fun _ => le_rfl, fun _ => le_rfl, chans_refl⟩
  | apply => exact .of_eq rfl rfl rfl (servers_update (Nat.le_succ _) le_rfl) chans_refl
  | notify _ _ _ _ hch =>
    exact .of_eq rfl rfl rfl (servers_update (Nat.le_succ _) le_rfl) (chans_set hch _)
  | install _ hlt => exact .of_eq rfl rfl rfl (servers_update hlt.le le_rfl) chans_refl
  | _ => exact .of_eq rfl rfl rfl hrefl chans_refl

/-- What was called stays called. -/
theorem Called.mono (hgrow : Grows net net') {op : κ} (h : net.Called m op) :
    net'.Called m op := by
  obtain ⟨t, ht⟩ := h
  exact ⟨t, hgrow.history ht⟩

/-! ## Results and replies -/

section
variable {log log' : List (ServiceEntry κ)} {k n n' : Nat} {op : κ} {res : ρ}
  {source : ReplySource}

/-- A longer log has the same states along the old one. -/
theorem stateAt_grown (h : log <+: log') (hk : k ≤ log.length) :
    m.stateAt log' k = m.stateAt log k := by
  obtain ⟨l, rfl⟩ := h
  exact replica_append hk l

/-- The next entry is executed. -/
theorem stateAt_succ {entry : ServiceEntry κ} {store : σ} (hentry : log[k]? = some entry)
    (hstore : m.stateAt log k = some store) :
    m.stateAt log (k + 1) = (m.execute store entry.op).map (·.1) := by
  rw [Machine.stateAt] at hstore
  rw [Machine.stateAt, replica_succ hentry, hstore]
  rfl

/-- A reply to an operation, when the log had `n` entries: one that a handler gave at once, after
`k` entries, or the one for the operation at position `p` of the log. -/
inductive Answer (m : Machine σ κ α ρ) (log : List (ServiceEntry κ)) (op : κ) :
    ρ → ReplySource → Nat → Prop
  | known {k n : Nat} {store : σ} {res : ρ} (hk : k ≤ n) (hstore : m.stateAt log k = some store)
      (hres : m.known store op = some res) : Answer m log op res (.known k) n
  | logged {p n term : Nat} {store store' : σ} {res : α} (hp : p < n)
      (hlog : log[p]? = some ⟨term, op⟩) (hstore : m.stateAt log p = some store)
      (hexec : m.execute store op = some (store', res)) :
      Answer m log op (m.reply op res) (.logged p) n

/-- An answer stays one when the log grows. -/
theorem Answer.mono (hlog : log <+: log') (hlen : n ≤ log.length) (hn : n ≤ n')
    (h : Answer m log op res source n) : Answer m log' op res source n' := by
  cases h with
  | known hk hstore hres =>
    exact .known (hk.trans hn) ((stateAt_grown hlog (hk.trans hlen)).trans hstore) hres
  | logged hp hentry hstore hexec =>
    exact .logged (hp.trans_le hn) (getElem?_grown hlog hentry)
      ((stateAt_grown hlog (hp.le.trans hlen)).trans hstore) hexec

/-- The applier of server `s` has sent a result to a channel for an index. -/
inductive Sent (m : Machine σ κ α ρ) (net : Service σ κ α ρ) (s : Nat) : Nat → α → Prop
  | mk {p : Nat} {entry : ServiceEntry κ} {store store' : σ} {res : α}
      (hentry : net.log[p]? = some entry) (happlied : p < (net.servers s).applied)
      (hstore : m.stateAt net.log p = some store)
      (hexec : m.execute store entry.op = some (store', res))
      (hterm : entry.term ≤ (net.servers s).currentTerm)
      (hstarts : ∀ st ∈ net.starts, st.server = s → st.index = p + 1 → st.term ≤ entry.term) :
      Sent m net s (p + 1) res

/-- What was sent on a wait channel stays sent. -/
theorem Sent.mono (hgrow : Grows net net') {s index : Nat} {res : α}
    (h : Sent m net s index res) : Sent m net' s index res := by
  cases h with
  | @mk p entry store store' _ hentry happlied hstore hexec hterm hstarts =>
    have hp := (List.getElem?_eq_some_iff.1 hentry).1
    refine .mk (getElem?_grown hgrow.log hentry) (happlied.trans_le (hgrow.applied s))
      ((stateAt_grown hgrow.log hp.le).trans hstore) hexec (hterm.trans (hgrow.term s)) ?_
    rintro st hst rfl hindex
    rcases hgrow.fresh st hst with hold | hnew
    · exact hstarts st hold rfl hindex
    · omega

end

/-! ## The invariant -/

/-- What is known of a handler. -/
def HandlerOK (m : Machine σ κ α ρ) (net : Service σ κ α ρ) (hd : ServiceHandler κ α ρ) : Prop :=
  net.Called m hd.op ∧ match hd.pc with
    | .checking | .starting | .leaving _ none => True
    | .started index term => ⟨hd.server, index, term, hd.op⟩ ∈ net.starts
    | .waiting index term ch => ⟨hd.server, index, term, hd.op⟩ ∈ net.starts ∧
      ∃ chan, net.chans[ch]? = some chan ∧ chan.server = hd.server ∧ chan.index = index
    | .received index term res => ⟨hd.server, index, term, hd.op⟩ ∈ net.starts ∧
      Sent m net hd.server index res
    | .leaving index (some res) =>
      Answer m net.log hd.op res (.logged (index - 1)) net.log.length

/-- What a handler knows stays true when others go on. -/
theorem HandlerOK.mono (hgrow : Grows net net') {hd : ServiceHandler κ α ρ}
    (h : HandlerOK m net hd) : HandlerOK m net' hd := by
  obtain ⟨hcalled, hpc⟩ := h
  refine ⟨hcalled.mono hgrow, ?_⟩
  split
  · trivial
  · trivial
  · trivial
  · next heq =>
    rw [heq] at hpc
    exact hgrow.starts hpc
  · next heq =>
    rw [heq] at hpc
    obtain ⟨hst, chan, hch, hserver, hindex⟩ := hpc
    obtain ⟨chan', hch', hserver', hindex'⟩ := hgrow.chans _ chan hch
    exact ⟨hgrow.starts hst, chan', hch', hserver'.trans hserver, hindex'.trans hindex⟩
  · next heq =>
    rw [heq] at hpc
    exact ⟨hgrow.starts hpc.1, hpc.2.mono hgrow⟩
  · next heq =>
    rw [heq] at hpc
    exact hpc.mono hgrow.log le_rfl hgrow.log.length_le

/-- Where everything comes from. -/
structure Inv (m : Machine σ κ α ρ) (net : Service σ κ α ρ) : Prop where
  clients : Clients m net
  logged : ∀ (p : Nat) (entry : ServiceEntry κ), net.log[p]? = some entry →
    ∃ t ≤ p, (.call (m.id entry.op) entry.op, t) ∈ net.history
  starts : ∀ st ∈ net.starts, net.Called m st.op ∧
    st.term ≤ (net.servers st.server).currentTerm ∧ 0 < st.index ∧
    ∀ entry : ServiceEntry κ, net.log[st.index - 1]? = some entry → entry.term = st.term →
      entry.op = st.op
  servers : ∀ s, (net.servers s).applied ≤ net.log.length ∧
    m.stateAt net.log (net.servers s).applied = some (net.servers s).store
  slots : ∀ (s index ch : Nat), (net.servers s).waitChMap[index]? = some ch → ∃ chan,
    net.chans[ch]? = some chan ∧ chan.server = s ∧ chan.index = index
  chans : ∀ chan ∈ net.chans, ∀ res ∈ chan.buffer, Sent m net chan.server chan.index res
  handlers : ∀ h, ∀ hd ∈ net.handlers h, HandlerOK m net hd
  replies : ∀ rep ∈ net.replies, ∃ op, m.id op = rep.id ∧ net.Called m op ∧
    Answer m net.log op rep.res rep.source net.log.length
  rets : ∀ i res t, (.ret i res, t) ∈ net.history → ∃ op t₀ source,
    (.call i op, t₀) ∈ net.history ∧ Answer m net.log op res source t

theorem inv_init : Inv m (init m) where
  clients := clients_init
  logged _ _ h := by cases h
  starts _ h := by cases h
  servers _ := ⟨le_rfl, rfl⟩
  slots s index ch h := by
    have hempty : (∅ : GoMap Nat Nat)[index]? = some ch := h
    rw [Std.ExtTreeMap.getElem?_empty] at hempty
    cases hempty
  chans _ h := by cases h
  handlers _ _ h := by cases h
  replies _ h := by cases h
  rets _ _ _ h := by cases h

/-- A handler that may use the result it has got has the result of its own operation. -/
theorem Inv.confirmed (h : Inv m net) {s index term : Nat} {op : κ} {res : α}
    (hmem : ⟨s, index, term, op⟩ ∈ net.starts) (hsent : Sent m net s index res)
    (hterm : (net.servers s).currentTerm = term) :
    Answer m net.log op (m.reply op res) (.logged (index - 1)) net.log.length := by
  cases hsent with
  | @mk p entry store store' _ hentry happlied hstore hexec hle hstarts =>
    have hge := hstarts _ hmem rfl rfl
    have hop := (h.starts _ hmem).2.2.2 entry hentry (by simp only at hge ⊢; omega)
    obtain ⟨term', op'⟩ := entry
    cases hop
    exact .logged (List.getElem?_eq_some_iff.1 hentry).1 hentry hstore hexec

/-- An operation that is on its way was called. -/
theorem Inv.called_of_mem (h : Inv m net) {op : κ} (hop : op ∈ net.called) : net.Called m op := by
  obtain ⟨⟨e, t⟩, hmem, he⟩ := List.mem_filterMap.1 hop
  cases e with
  | call i op' =>
    cases he
    obtain ⟨rfl, -⟩ := h.clients.call i op t hmem
    exact ⟨t, hmem⟩
  | ret => cases he

section
variable (h : Inv m net) (hst : Steps m net a net')
include h hst

/-- An entry that is appended was started, and so it was called. -/
theorem logged_step (p : Nat) (entry : ServiceEntry κ) (hp : net'.log[p]? = some entry) :
    ∃ t ≤ p, (.call (m.id entry.op) entry.op, t) ∈ net'.history := by
  have hold : net.log[p]? = some entry →
      ∃ t ≤ p, (.call (m.id entry.op) entry.op, t) ∈ net'.history := by
    intro hp
    obtain ⟨t, ht, hcall⟩ := h.logged p entry hp
    exact ⟨t, ht, (grows_step hst).history hcall⟩
  cases hst with
  | @commit _ st hmem =>
    rcases of_getElem?_concat hp with hp | ⟨rfl, rfl⟩
    · exact hold hp
    · obtain ⟨⟨t, hcall⟩, -, -⟩ := h.starts st hmem
      exact ⟨t, h.clients.time_le _ hcall, hcall⟩
  | _ => exact hold hp

/-- What `Start` returned is about the log, also after a step. -/
theorem starts_step : ∀ st ∈ net'.starts, net'.Called m st.op ∧
    st.term ≤ (net'.servers st.server).currentTerm ∧ 0 < st.index ∧
    ∀ entry : ServiceEntry κ, net'.log[st.index - 1]? = some entry → entry.term = st.term →
      entry.op = st.op := by
  have hgrow := grows_step hst
  have hold : ∀ st ∈ net.starts, (∀ entry : ServiceEntry κ, net'.log[st.index - 1]? = some entry →
      entry.term = st.term → entry.op = st.op) → net'.Called m st.op ∧
      st.term ≤ (net'.servers st.server).currentTerm ∧ 0 < st.index ∧
      ∀ entry : ServiceEntry κ, net'.log[st.index - 1]? = some entry → entry.term = st.term →
        entry.op = st.op := by
    intro st hmem hop
    obtain ⟨hcalled, hterm, hpos, -⟩ := h.starts st hmem
    exact ⟨hcalled.mono hgrow, hterm.trans (hgrow.term _), hpos, hop⟩
  cases hst with
  | @start hh s index op hhd hmay =>
    intro st hmem
    rcases List.mem_append.1 hmem with hmem | hmem
    · exact hold st hmem (h.starts st hmem).2.2.2
    · rw [List.mem_singleton.1 hmem]
      exact ⟨(h.handlers hh _ hhd).1.mono hgrow, le_rfl, Nat.zero_lt_of_lt hmay.1, hmay.2⟩
  | @commit _ st₀ hmem₀ hmay =>
    refine fun st hmem => hold st hmem fun entry hentry hterm => ?_
    obtain ⟨-, -, hpos, hop⟩ := h.starts st hmem
    rcases of_getElem?_concat hentry with hentry | ⟨hlast, rfl⟩
    · exact hop entry hentry hterm
    · have hindex : st.index = net.log.length + 1 := by omega
      exact (hmay.2 st hmem (hindex.trans hmay.1.symm) hterm.symm).symm
  | _ => exact fun st hmem => hold st hmem (h.starts st hmem).2.2.2

/-- Servers have applied entries of the log. -/
theorem servers_step (s : Nat) : (net'.servers s).applied ≤ net'.log.length ∧
    m.stateAt net'.log (net'.servers s).applied = some (net'.servers s).store := by
  have hupdate : ∀ (s₀ : Nat) (sv : ServiceServer σ), sv.applied ≤ net.log.length →
      m.stateAt net.log sv.applied = some sv.store →
      (Function.update net.servers s₀ sv s).applied ≤ net.log.length ∧
        m.stateAt net.log (Function.update net.servers s₀ sv s).applied =
          some (Function.update net.servers s₀ sv s).store := by
    intro s₀ sv hle hstore
    by_cases hs : s = s₀
    · subst hs
      rw [Function.update_self]
      exact ⟨hle, hstore⟩
    · rw [Function.update_of_ne hs]
      exact h.servers s
  have happly : ∀ {s₀ : Nat} {entry : ServiceEntry κ} {store : σ} {res : α},
      net.log[(net.servers s₀).applied]? = some entry →
      m.execute (net.servers s₀).store entry.op = some (store, res) →
      (net.servers s₀).applied + 1 ≤ net.log.length ∧
        m.stateAt net.log ((net.servers s₀).applied + 1) = some store := by
    intro s₀ entry store res hentry hexec
    refine ⟨(List.getElem?_eq_some_iff.1 hentry).1, ?_⟩
    rw [stateAt_succ hentry (h.servers s₀).2, hexec]
    rfl
  cases hst with
  | makeSlot | finish | raft => exact hupdate _ _ (h.servers _).1 (h.servers _).2
  | apply hentry hexec => exact hupdate _ _ (happly hentry hexec).1 (happly hentry hexec).2
  | notify hentry hexec => exact hupdate _ _ (happly hentry hexec).1 (happly hentry hexec).2
  | install hstore _ hle => exact hupdate _ _ hle hstore
  | commit =>
    obtain ⟨hle, hstore⟩ := h.servers s
    refine ⟨hle.trans ?_, (stateAt_grown (List.prefix_append _ _) hle).trans hstore⟩
    rw [List.length_append]
    omega
  | _ => exact h.servers s

/-- A slot holds a channel that was made for it. -/
theorem slots_step (s index ch : Nat) (hslot : (net'.servers s).waitChMap[index]? = some ch) :
    ∃ chan, net'.chans[ch]? = some chan ∧ chan.server = s ∧ chan.index = index := by
  have hgrow := grows_step hst
  have hold : (net.servers s).waitChMap[index]? = some ch → ∃ chan,
      net'.chans[ch]? = some chan ∧ chan.server = s ∧ chan.index = index := by
    intro hslot
    obtain ⟨chan, hch, hserver, hindex⟩ := h.slots s index ch hslot
    obtain ⟨chan', hch', hserver', hindex'⟩ := hgrow.chans ch chan hch
    exact ⟨chan', hch', hserver'.trans hserver, hindex'.trans hindex⟩
  have hset : ∀ {s₀ : Nat} {sv : ServiceServer σ}, (s = s₀ → sv.waitChMap[index]? = some ch →
        ∃ chan, net'.chans[ch]? = some chan ∧ chan.server = s ∧ chan.index = index) →
      (Function.update net.servers s₀ sv s).waitChMap[index]? = some ch → ∃ chan,
        net'.chans[ch]? = some chan ∧ chan.server = s ∧ chan.index = index := by
    intro s₀ sv hnew hslot
    by_cases hs : s = s₀
    · subst hs
      rw [Function.update_self] at hslot
      exact hnew rfl hslot
    · rw [Function.update_of_ne hs] at hslot
      exact hold hslot
  cases hst with
  | makeSlot =>
    refine hset (fun hs hslot => ?_) hslot
    subst hs
    simp only at hslot
    rw [GoMap.getElem?_insert] at hslot
    split at hslot
    · next heq =>
      cases hslot
      exact ⟨_, List.getElem?_concat_length, rfl, heq.symm⟩
    · exact hold hslot
  | finish =>
    refine hset (fun hs hslot => ?_) hslot
    subst hs
    simp only at hslot
    rw [Std.ExtTreeMap.getElem?_erase] at hslot
    split at hslot
    · cases hslot
    · exact hold hslot
  | raft | apply | notify | install =>
    refine hset (fun hs hslot => hold ?_) hslot
    subst hs
    exact hslot
  | _ => exact hold hslot

/-- What is in a channel was sent by the applier, for the index of the channel. -/
theorem chans_step : ∀ chan ∈ net'.chans, ∀ res ∈ chan.buffer,
    Sent m net' chan.server chan.index res := by
  have hgrow := grows_step hst
  have hold : ∀ chan ∈ net.chans, ∀ res ∈ chan.buffer, Sent m net' chan.server chan.index res :=
    fun chan hmem res hres => (h.chans chan hmem res hres).mono hgrow
  cases hst with
  | makeSlot =>
    intro chan hmem res hres
    rcases List.mem_append.1 hmem with hmem | hmem
    · exact hold chan hmem res hres
    · rw [List.mem_singleton.1 hmem] at hres
      cases hres
  | receive =>
    intro chan hmem res hres
    rcases List.mem_or_eq_of_mem_set hmem with hmem | rfl
    · exact hold chan hmem res hres
    · cases hres
  | @notify s ch entry store a chan₀ hentry hexec hterm hslot hch =>
    intro chan hmem res hres
    rcases List.mem_or_eq_of_mem_set hmem with hmem | rfl
    · exact hold chan hmem res hres
    cases hres
    obtain ⟨chan', hch', hserver, hindex⟩ := h.slots _ _ _ hslot
    rw [hch] at hch'
    cases hch'
    simp only [hserver, hindex]
    refine .mk hentry ?_ (h.servers s).2 hexec ?_ ?_
    · simp only [setServer, Function.update_self]
      omega
    · simp only [setServer, Function.update_self]
      exact hterm.le
    · rintro st hmem rfl -
      rw [hterm]
      exact (h.starts st hmem).2.1
  | _ => exact hold

/-- Handlers are right after a step. -/
theorem handlers_step (hh : Nat) : ∀ hd ∈ net'.handlers hh, HandlerOK m net' hd := by
  have hgrow := grows_step hst
  have hold : ∀ hd ∈ net.handlers hh, HandlerOK m net' hd :=
    fun hd hhd => (h.handlers hh hd hhd).mono hgrow
  have hset : ∀ {h₀ : Nat} {hd₀ : Option (ServiceHandler κ α ρ)},
      (∀ hd ∈ hd₀, HandlerOK m net' hd) →
      ∀ hd ∈ Function.update net.handlers h₀ hd₀ hh, HandlerOK m net' hd := by
    intro h₀ hd₀ hok
    by_cases heq : hh = h₀
    · subst heq
      rw [Function.update_self]
      exact hok
    · rw [Function.update_of_ne heq]
      exact hold
  have hgoto : ∀ {h₀ : Nat} {hd : ServiceHandler κ α ρ}, HandlerOK m net' hd →
      ∀ hd' ∈ Function.update net.handlers h₀ (some hd) hh, HandlerOK m net' hd' := by
    intro h₀ hd hok
    refine hset fun hd' hhd' => ?_
    cases hhd'
    exact hok
  have hcalled : ∀ {h₀ s : Nat} {op : κ} {pc : HandlerPc α ρ},
      net.handlers h₀ = some ⟨s, op, pc⟩ → net'.Called m op :=
    fun hhd => (h.handlers _ _ hhd).1.mono hgrow
  cases hst with
  | request hop => exact hgoto ⟨(h.called_of_mem hop).mono hgrow, trivial⟩
  | answer | refuse | finish => exact hset fun _ hhd => by cases hhd
  | check hhd => exact hgoto ⟨hcalled hhd, trivial⟩
  | start hhd =>
    exact hgoto ⟨hcalled hhd, List.mem_append_right _ (List.mem_singleton_self _)⟩
  | slot hhd hch => exact hgoto ⟨hcalled hhd, (h.handlers _ _ hhd).2, h.slots _ _ _ hch⟩
  | makeSlot hhd =>
    exact hgoto ⟨hcalled hhd, (h.handlers _ _ hhd).2, _, List.getElem?_concat_length, rfl, rfl⟩
  | @receive _ s index term ch op chan res hhd hch hres =>
    obtain ⟨hmem, chan', hch', rfl, rfl⟩ := (h.handlers _ _ hhd).2
    rw [hch] at hch'
    cases hch'
    exact hgoto ⟨hcalled hhd, hmem,
      (h.chans chan (List.mem_of_getElem? hch) res hres).mono hgrow⟩
  | timeout hhd | deny hhd => exact hgoto ⟨hcalled hhd, trivial⟩
  | confirm hhd hterm =>
    obtain ⟨hmem, hsent⟩ := (h.handlers _ _ hhd).2
    exact hgoto ⟨hcalled hhd, h.confirmed hmem hsent hterm⟩
  | _ => exact hold

/-- Replies are answers after a step. -/
theorem replies_step : ∀ rep ∈ net'.replies, ∃ op, m.id op = rep.id ∧ net'.Called m op ∧
    Answer m net'.log op rep.res rep.source net'.log.length := by
  have hgrow := grows_step hst
  have hold : ∀ rep ∈ net.replies, ∃ op, m.id op = rep.id ∧ net'.Called m op ∧
      Answer m net'.log op rep.res rep.source net'.log.length := by
    intro rep hrep
    obtain ⟨op, hid, hcalled, hans⟩ := h.replies rep hrep
    exact ⟨op, hid, hcalled.mono hgrow, hans.mono hgrow.log le_rfl hgrow.log.length_le⟩
  cases hst with
  | @answer _ s op res hhd hknown =>
    intro rep hrep
    rcases List.mem_append.1 hrep with hrep | hrep
    · exact hold rep hrep
    · rw [List.mem_singleton.1 hrep]
      obtain ⟨hle, hstore⟩ := h.servers s
      exact ⟨op, rfl, (h.handlers _ _ hhd).1, .known hle hstore hknown⟩
  | @finish _ s index op reply hhd =>
    intro rep hrep
    rcases List.mem_append.1 hrep with hrep | hrep
    · exact hold rep hrep
    · cases reply with
      | none => cases hrep
      | some res =>
        rw [List.mem_singleton.1 hrep]
        exact ⟨op, rfl, (h.handlers _ _ hhd).1, (h.handlers _ _ hhd).2⟩
  | _ => exact hold

/-- A call returns with a reply to it. -/
theorem rets_step (i : Int × Int) (res : ρ) (t : Nat) (hret : (.ret i res, t) ∈ net'.history) :
    ∃ op t₀ source, (.call i op, t₀) ∈ net'.history ∧ Answer m net'.log op res source t := by
  have hgrow := grows_step hst
  have hold : (.ret i res, t) ∈ net.history → ∃ op t₀ source, (.call i op, t₀) ∈ net'.history ∧
      Answer m net'.log op res source t := by
    intro hret
    obtain ⟨op, t₀, source, hcall, hans⟩ := h.rets i res t hret
    exact ⟨op, t₀, source, hgrow.history hcall,
      hans.mono hgrow.log (h.clients.time_le _ hret) le_rfl⟩
  cases hst with
  | call => exact hold (ret_mem_record_call.1 hret)
  | ret hrep =>
    rcases ret_mem_record_ret.1 hret with hret | ⟨rfl, rfl, rfl⟩
    · exact hold hret
    · obtain ⟨op, hid, ⟨t₀, hcall⟩, hans⟩ := h.replies _ (List.mem_of_getElem? hrep)
      rw [hid] at hcall
      exact ⟨op, t₀, _, call_mem_record_ret.2 hcall, hans⟩
  | _ => exact hold hret

/-- The invariant holds after a step. -/
theorem Inv.step : Inv m net' :=
  ⟨h.clients.step hst, logged_step h hst, starts_step h hst, servers_step h hst, slots_step h hst,
    chans_step h hst, handlers_step h hst, replies_step h hst, rets_step h hst⟩

end

/-- The invariant holds in every reachable state. -/
theorem inv_reach [DecidableEq κ] {ok : Service σ κ α ρ → ServiceAction κ → Prop}
    (h : Reach (Service.step m) ok (init m) net) : Inv m net :=
  h.invariant inv_init fun hs _ hst => hs.step (step_cases hst)

end Service

end DistLabs.Lib
