import Mathlib.Data.List.Basic

/-!
# Streams of numbered messages

Messages carry a position, `index`, and `ok c b` says that `b` may follow the position `c`. A list
of messages `Follows` a position when each of them may follow the one before. When positions
increase, the message of the smallest position is the next one of what is still to come
(`Follows.eq_cons_of_le`), so senders that let the smallest go first keep the order in which
positions were given out.
-/

namespace DistLabs.Lib

variable {β : Type} (index : β → Nat) (ok : Nat → β → Prop)

/-- Each message may follow the position of the one before, and the first may follow `c`. -/
def Follows : Nat → List β → Prop
  | _, [] => True
  | c, b :: bs => ok c b ∧ Follows (index b) bs

instance Follows.decidable [∀ c b, Decidable (ok c b)] :
    ∀ c bs, Decidable (Follows index ok c bs)
  | _, [] => isTrue trivial
  | c, b :: bs =>
    have := Follows.decidable (index b) bs
    inferInstanceAs (Decidable (ok c b ∧ Follows index ok (index b) bs))

/-- The position of the last message, or `c` if there is none. -/
def lastIndex : Nat → List β → Nat
  | c, [] => c
  | _, b :: bs => lastIndex (index b) bs

variable {index ok}

/-- Two streams, of which the second one starts where the first one ends, are one stream. -/
theorem follows_append {as bs : List β} {c : Nat} :
    Follows index ok c (as ++ bs) ↔
      Follows index ok c as ∧ Follows index ok (lastIndex index c as) bs := by
  induction as generalizing c with
  | nil => exact ⟨fun h => ⟨trivial, h⟩, fun h => h.2⟩
  | cons a as ih =>
    rw [List.cons_append, Follows, Follows, ih, and_assoc]
    rfl

theorem lastIndex_append {as bs : List β} {c : Nat} :
    lastIndex index c (as ++ bs) = lastIndex index (lastIndex index c as) bs := by
  induction as generalizing c with
  | nil => rfl
  | cons a as ih => exact ih

section
variable (hlt : ∀ c b, ok c b → c < index b)
include hlt

/-- Positions increase along a stream. -/
theorem Follows.lt_of_mem {c : Nat} {l : List β} {b : β} (h : Follows index ok c l)
    (hb : b ∈ l) : c < index b := by
  induction l generalizing c with
  | nil => cases hb
  | cons a l ih =>
    have ha := hlt c a h.1
    rcases List.mem_cons.1 hb with rfl | hb
    · exact ha
    · exact Nat.lt_trans ha (ih h.2 hb)

/-- A stream goes on from where it starts. -/
theorem Follows.le_lastIndex {c : Nat} {l : List β} (h : Follows index ok c l) :
    c ≤ lastIndex index c l := by
  induction l generalizing c with
  | nil => exact Nat.le_refl c
  | cons a l ih => exact Nat.le_trans (Nat.le_of_lt (hlt c a h.1)) (ih h.2)

/-- The message of the smallest position comes first. -/
theorem Follows.eq_cons_of_le {c : Nat} {l : List β} {b : β} (h : Follows index ok c l)
    (hb : b ∈ l) (hmin : ∀ b' ∈ l, index b ≤ index b') : ∃ l', l = b :: l' := by
  cases l with
  | nil => cases hb
  | cons a l =>
    rcases List.mem_cons.1 hb with rfl | hmem
    · exact ⟨l, rfl⟩
    · have h1 := h.2.lt_of_mem hlt hmem
      have h2 := hmin a List.mem_cons_self
      exact absurd h1 (Nat.not_lt.2 h2)

end

/-- Messages that are numbered one by one from `c` on are a stream. -/
theorem follows_of_consecutive {c : Nat} {l : List β}
    (h : ∀ k b, l[k]? = some b → index b = c + k + 1 ∧ ok (c + k) b) :
    Follows index ok c l ∧ lastIndex index c l = c + l.length := by
  induction l generalizing c with
  | nil => exact ⟨trivial, rfl⟩
  | cons a l ih =>
    obtain ⟨ha, hoka⟩ := h 0 a rfl
    rw [Nat.add_zero] at ha hoka
    have htail : ∀ k b, l[k]? = some b → index b = index a + k + 1 ∧ ok (index a + k) b := by
      intro k b hk
      obtain ⟨hb, hokb⟩ := h (k + 1) b hk
      rw [show c + (k + 1) = index a + k by omega] at hb hokb
      exact ⟨hb, hokb⟩
    obtain ⟨h1, h2⟩ := ih htail
    refine ⟨⟨hoka, h1⟩, ?_⟩
    rw [lastIndex, h2, ha, List.length_cons]
    omega

end DistLabs.Lib
