/-!
# What a replicated service receives from Raft

A service gets committed commands and snapshots on one channel. With `m` the largest index received
so far (at the start that of the snapshot it was started from), the next message is a command with
index at most `m + 1` or a snapshot of any later state; late and repeated messages may arrive at
any point. The contents are determined by the index: a command message carries the committed
command, a snapshot message the encoded state (`Notice.message`). `Fed` is a service together with
`m`, and `Fed.step` the arrival of one message.
-/

namespace DistLabs.Lib

variable {κ β σ : Type}

/-- `ApplyMsg`, without the terms. A message of one kind has the zero values in the fields of the
other. -/
structure ApplyMessage (κ β : Type) where
  commandValid : Bool := false
  command : Option κ := none
  commandIndex : Nat := 0
  snapshotValid : Bool := false
  snapshot : Option β := none
  snapshotIndex : Nat := 0

namespace ApplyMessage

/-- The message for a command. -/
def ofCommand (index : Nat) (command : κ) : ApplyMessage κ β :=
  { commandValid := true, command := some command, commandIndex := index }

/-- The message for a snapshot. -/
def ofSnapshot (index : Nat) (snapshot : β) : ApplyMessage κ β :=
  { snapshotValid := true, snapshot := some snapshot, snapshotIndex := index }

end ApplyMessage

/-- An encoder whose decoder inverts it. -/
structure Codec (σ β : Type) where
  encode : σ → β
  decode : β → Option σ
  decode_encode : ∀ s, decode (encode s) = some s

/-- The codec that does nothing. -/
def Codec.id : Codec σ σ := ⟨fun s => s, some, fun _ => rfl⟩

/-- The kind and the index of a message. -/
inductive Notice where
  | command (index : Nat)
  | snapshot (index : Nat)

namespace Notice

/-- The index that a notice is about. -/
def index : Notice → Nat
  | .command i => i
  | .snapshot j => j

/-- The message, for the committed commands `log`, of which the first has index 1, and the
snapshots `saved`. -/
def message (log : List κ) (saved : Nat → β) : Notice → Option (ApplyMessage κ β)
  | .command i => if i = 0 then none else log[i - 1]?.map (.ofCommand i)
  | .snapshot j => if j ≤ log.length then some (.ofSnapshot j (saved j)) else none

/-- What may arrive at a service that was started from a snapshot of index `m₀` and has received
indices up to `m`. -/
def Due (m₀ m : Nat) : Notice → Prop
  | .command i => m₀ < i ∧ i ≤ m + 1
  | .snapshot j => m₀ < j

instance (m₀ m : Nat) : (n : Notice) → Decidable (n.Due m₀ m)
  | .command i => inferInstanceAs (Decidable (m₀ < i ∧ i ≤ m + 1))
  | .snapshot j => inferInstanceAs (Decidable (m₀ < j))

end Notice

/-- A service and the largest index it has received. -/
structure Fed (σ : Type) where
  server : σ
  received : Nat

/-- A message arrives. -/
def Fed.step (log : List κ) (saved : Nat → β) (receive : σ → ApplyMessage κ β → σ) (m₀ : Nat)
    (f : Fed σ) (n : Notice) : Option (Fed σ) :=
  if n.Due m₀ f.received then
    (n.message log saved).map fun msg => ⟨receive f.server msg, max f.received n.index⟩
  else none

/-- The cases of a step. -/
theorem Fed.step_cases {log : List κ} {saved : Nat → β} {receive : σ → ApplyMessage κ β → σ}
    {m₀ : Nat} {f f' : Fed σ} {n : Notice} (hst : f.step log saved receive m₀ n = some f') :
    (∃ i c, n = .command (i + 1) ∧ m₀ ≤ i ∧ i ≤ f.received ∧ log[i]? = some c ∧
      f' = ⟨receive f.server (.ofCommand (i + 1) c), max f.received (i + 1)⟩) ∨
    ∃ j, n = .snapshot j ∧ m₀ < j ∧ j ≤ log.length ∧
      f' = ⟨receive f.server (.ofSnapshot j (saved j)), max f.received j⟩ := by
  unfold Fed.step at hst
  split at hst
  · next hdue =>
    obtain ⟨msg, hmsg, rfl⟩ := Option.map_eq_some_iff.1 hst
    cases n with
    | command i =>
      obtain ⟨hlt, hle⟩ := hdue
      simp only [Notice.message] at hmsg
      split at hmsg
      · cases hmsg
      obtain ⟨c, hc, rfl⟩ := Option.map_eq_some_iff.1 hmsg
      obtain ⟨i, rfl⟩ : ∃ i', i = i' + 1 := ⟨i - 1, by omega⟩
      exact .inl ⟨i, c, rfl, by omega, by omega, hc, rfl⟩
    | snapshot j =>
      simp only [Notice.message] at hmsg
      split at hmsg
      · next hle =>
        cases hmsg
        exact .inr ⟨j, rfl, hdue, hle, rfl⟩
      · cases hmsg
  · cases hst

end DistLabs.Lib
