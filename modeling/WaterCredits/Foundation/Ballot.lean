import WaterCredits.Foundation.FiniteSum

/-! # Weighted ballots

A ballot collects the weights that distinct voters put on two sides. A voter
whose weight stays below a fixed power cannot push the ballot over the total
of that power.
-/

namespace Foundation

variable {α : Type*}

/-- Who has voted, and the weight on each side. -/
structure Ballot (α : Type*) where
  voters : Finset α
  yes : ℤ
  no : ℤ

namespace Ballot

def empty : Ballot α := ⟨∅, 0, 0⟩

/-- One more voter puts a weight on one side. -/
def cast [DecidableEq α] (b : Ballot α) (a : α) (approve : Bool) (n : ℤ) : Ballot α where
  voters := insert a b.voters
  yes := if approve = true then b.yes + n else b.yes
  no := if approve = true then b.no else b.no + n

def weight (b : Ballot α) : ℤ := b.yes + b.no

/-- Both sides are non-negative, and together they stay within the power of the voters. -/
structure Within (b : Ballot α) (power : α → ℤ) : Prop where
  yes_nonneg : 0 ≤ b.yes
  no_nonneg : 0 ≤ b.no
  weight_le : b.weight ≤ ∑ a ∈ b.voters, power a

variable {b : Ballot α} {power : α → ℤ}

theorem within_empty : (empty : Ballot α).Within power := ⟨le_rfl, le_rfl, le_rfl⟩

theorem Within.cast [DecidableEq α] (h : b.Within power) {a : α} (ha : a ∉ b.voters) {n : ℤ}
    (h0 : 0 ≤ n) (hn : n ≤ power a) (approve : Bool) : (b.cast a approve n).Within power := by
  have hy := h.yes_nonneg
  have hno := h.no_nonneg
  have hw := h.weight_le
  unfold weight at hw
  have hs : ∑ x ∈ insert a b.voters, power x = power a + ∑ x ∈ b.voters, power x :=
    Finset.sum_insert ha
  constructor
  · simp only [Ballot.cast]
    split <;> omega
  · simp only [Ballot.cast]
    split <;> omega
  · simp only [weight, Ballot.cast, hs]
    split <;> omega

/-- The weight of a ballot never exceeds the total power. -/
theorem Within.weight_le_total (h : b.Within power) (hf : (Function.support power).Finite)
    (h0 : ∀ a, 0 ≤ power a) : b.weight ≤ ∑ᶠ a, power a :=
  h.weight_le.trans (sum_le_finsum hf h0 b.voters)

end Ballot

end Foundation
