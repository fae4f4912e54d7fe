import Mathlib.Data.Fintype.Card

/-!
# Majorities

A quorum is a strict majority of a finite type. Two quorums meet, which is all that the agreement
arguments use.
-/

namespace DistLabs.Lib

variable {ι : Type} [Fintype ι]

/-- A strict majority. -/
def Quorum (Q : Finset ι) : Prop := Fintype.card ι < 2 * Q.card

/-- Two majorities have a member in common. -/
theorem Quorum.inter {Q R : Finset ι} (hQ : Quorum Q) (hR : Quorum R) :
    ∃ p, p ∈ Q ∧ p ∈ R := by
  classical
  have hcard : (Finset.univ : Finset ι).card < Q.card + R.card := by
    rw [Finset.card_univ]
    unfold Quorum at hQ hR
    omega
  obtain ⟨p, hp⟩ := Finset.inter_nonempty_of_card_lt_card_add_card
    (Finset.subset_univ Q) (Finset.subset_univ R) hcard
  exact ⟨p, (Finset.mem_inter.1 hp).1, (Finset.mem_inter.1 hp).2⟩

end DistLabs.Lib
