import Mathlib.Algebra.Order.Ring.Int
import Mathlib.Tactic.Linarith

/-! # Polls

A poll counts two sides against what is eligible. Its quorum and its majority
are fractions of a common denominator. A quorum that is rounded up and a share
that is rounded down decide a poll as the fractions themselves do.
-/

namespace Foundation

/-- What is cast on the two sides, and what could be cast. -/
structure Poll where
  yes : ℤ
  no : ℤ
  eligible : ℤ

namespace Poll

variable {d q t n : ℤ} {k : Poll}

/-- What is cast on both sides. -/
def turnout (k : Poll) : ℤ := k.yes + k.no

/-- One vote more, of a given weight. -/
def add (k : Poll) (approve : Bool) (n : ℤ) : Poll :=
  if approve = true then { k with yes := k.yes + n } else { k with no := k.no + n }

/-- The turnout is at least the fraction `q / d` of what is eligible. -/
def Reached (d q : ℤ) (k : Poll) : Prop := q * k.eligible ≤ k.turnout * d

/-- At least the fraction `t / d` of a turnout that is not empty approves. -/
def Carried (d t : ℤ) (k : Poll) : Prop := 0 < k.turnout ∧ t * k.turnout ≤ k.yes * d

instance : Decidable (Reached d q k) := inferInstanceAs (Decidable (_ ≤ _))

instance : Decidable (Carried d t k) := inferInstanceAs (Decidable (_ ∧ _))

theorem turnout_add (k : Poll) (approve : Bool) (n : ℤ) :
    (k.add approve n).turnout = k.turnout + n := by
  unfold add turnout
  split
  · exact add_right_comm _ _ _
  · exact (add_assoc _ _ _).symm

/-- The sides of a poll that counts no negative weight. -/
structure Nonneg (k : Poll) : Prop where
  yes : 0 ≤ k.yes
  no : 0 ≤ k.no
  eligible : 0 ≤ k.eligible

theorem Nonneg.add (h : k.Nonneg) (hn : 0 ≤ n) (approve : Bool) : (k.add approve n).Nonneg := by
  unfold Poll.add
  split
  · exact ⟨add_nonneg h.yes hn, h.no, h.eligible⟩
  · exact ⟨h.yes, add_nonneg h.no hn, h.eligible⟩

theorem Nonneg.turnout (h : k.Nonneg) : 0 ≤ k.turnout := add_nonneg h.yes h.no

/-- Rounding up what is compared with an integer changes nothing. -/
theorem ceil_le_iff (hd : 0 < d) {m : ℤ} : (n + d - 1) / d ≤ m ↔ n ≤ m * d := by
  rw [Int.ediv_le_iff_le_mul hd]
  omega

/-- A turnout reaches the rounded quorum exactly when it reaches the quorum. -/
theorem ceil_le_turnout_iff (hd : 0 < d) :
    (k.eligible * q + d - 1) / d ≤ k.turnout ↔ k.Reached d q := by
  rw [ceil_le_iff hd, mul_comm]
  rfl

/-- The rounded share of the approvals meets a threshold exactly when the share does. -/
theorem le_share_iff (h : 0 < k.turnout) : t ≤ k.yes * d / k.turnout ↔ k.Carried d t := by
  rw [Int.le_ediv_iff_mul_le h]
  exact (and_iff_right h).symm

end Poll

end Foundation
