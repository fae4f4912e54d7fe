import DistLabs.Kvraft.OnRaft
import DistLabs.Porcupine.Recorded

/-!
# The tests of `kvraft` raise no false alarm

The tests of `kvraft` record the calls of all clerks and end with a check of the log by
`CheckOperationsVerbose`. In every orderly run of `kvraft` on `raft.go` this check does not return
Illegal.
-/

namespace DistLabs.Kvraft

open Lib Porcupine

/-- The input that the functions `Get`, `Put` and `Append` of `test_test.go` record. -/
def Op.input (op : Op) : KvInput :=
  match op.opType with
  | .get => ⟨0, op.key, []⟩
  | .put => ⟨1, op.key, op.value⟩
  | .append => ⟨2, op.key, op.value⟩

/-- The model of the checker is the map that linearizability is about. -/
theorem store_step (db : GoString → GoString) (op : Op) :
    KvModel.store.step db op.input ⟨(kvModel db op).2⟩ = (true, (kvModel db op).1) := by
  cases hop : op.opType with
  | get =>
    simp only [Op.input, kvModel, hop, KvModel.store, Model.product, KvModel,
      KvModel.step, if_true, beq_self_eq_true, Function.update_eq_self]
  | put => simp [Op.input, kvModel, hop, KvModel.store, Model.product, KvModel, KvModel.step]
  | append => simp [Op.input, kvModel, hop, KvModel.store, Model.product, KvModel, KvModel.step]

section
variable {gob : Gob} {n : Nat} {S : KVStack n} {time : Nat → Int}
  {operations : List (Operation KvInput KvOutput)}

/-- The log of the calls of all clerks is linearizable. -/
theorem log_linearizable (h : OrderlyRun gob S) (htime : Clock time)
    (hlog : OpLog Op.input KvOutput.mk time S.history operations) :
    KvModel.store.Linearizable operations := by
  obtain ⟨net, hR, hinv⟩ := exists_refines (kvHost_implements gob) h
  have hlin := linearizable_of_inv hinv
  rw [hR.history] at hlin
  refine hlog.linearizable htime (fun i op op' hop hop' => ?_) store_step hlin
  rw [← hR.history] at hop hop'
  obtain ⟨⟨_, t⟩, hmem, rfl⟩ := List.mem_map.1 hop
  obtain ⟨⟨_, t'⟩, hmem', heq⟩ := List.mem_map.1 hop'
  cases heq
  exact (hinv.clients.call_unique _ _ _ _ _ hmem hmem').1

/-- The check at the end of a test does not return Illegal, if all calls have returned. -/
theorem check_never_illegal (h : OrderlyRun gob S) (htime : Clock time)
    (hlog : OpLog Op.input KvOutput.mk time S.history operations) {s : EntrySort KvInput KvOutput}
    {verbose : Bool} {timeout : Int} {result : CheckResult} {info : List (List (List Nat))}
    (hcheck : checkOperations s KvModel operations verbose timeout result info) :
    result = .ok ∨ result = .unknown ∧ 0 < timeout := by
  obtain ⟨-, hillegal, hunknown⟩ := verdict_of_checkOperations (hlog.times htime) hcheck
  cases result with
  | unknown => exact .inr ⟨rfl, hunknown rfl⟩
  | ok => exact .inl rfl
  | illegal => exact absurd (log_linearizable h htime hlog) (hillegal rfl)

end

/-- What the clients of the run with a snapshot and a crash record. -/
def throughCrashLog : List (Operation KvInput KvOutput) :=
  [⟨⟨1, [10], [7]⟩, 0, ⟨[]⟩, 1⟩, ⟨⟨0, [10], []⟩, 2, ⟨[7]⟩, 3⟩]

/-- The clients of the run have recorded its calls. -/
theorem opLog_throughCrash : OpLog Op.input KvOutput.mk Nat.cast
    (after (.init (kvHost someGob)) (written ++ readAgain)).history throughCrashLog := by
  have hhistory : (after (.init (kvHost someGob)) (written ++ readAgain)).history =
      [.call (1, 0) ⟨1, 0, .put, [10], [7]⟩, .ret (1, 0) [],
        .call (2, 0) ⟨2, 0, .get, [10], []⟩, .ret (2, 0) [7]] := by decide +kernel
  rw [hhistory]
  refine ⟨[(1, 0), (2, 0)], by decide, .cons ?_ (.cons ?_ .nil), fun i op hop => ?_⟩
  · exact ⟨0, 1, _, _, Nat.one_pos, rfl, rfl, rfl, rfl, le_rfl, le_rfl⟩
  · exact ⟨2, 3, _, _, Nat.lt_succ_self 2, rfl, rfl, rfl, rfl, le_rfl, le_rfl⟩
  · simp only [List.mem_cons, HistoryEvent.call.injEq, reduceCtorEq, List.not_mem_nil, or_false,
      false_or] at hop
    rcases hop with ⟨rfl, -⟩ | ⟨rfl, -⟩ <;> decide

/-- The checker accepts what they have recorded. -/
theorem check_never_illegal_throughCrash :
    ∃ info, checkOperations byTime KvModel throughCrashLog true 0 .ok info := by
  obtain ⟨result, info, hcheck⟩ :
      ∃ result info, checkOperations byTime KvModel throughCrashLog true 0 result info :=
    exists_checkOperations (by decide) (.inl (by decide))
  have hclock : Clock Nat.cast := fun m n => Int.ofNat_le.2
  rcases check_never_illegal (reach_reached _) hclock opLog_throughCrash hcheck with rfl | ⟨-, hlt⟩
  · exact ⟨info, hcheck⟩
  · exact absurd hlt (Int.lt_irrefl 0)

end DistLabs.Kvraft
