import Mathlib.Algebra.BigOperators.Group.List.Basic
import Mathlib.Algebra.Order.Ring.Int
import Mathlib.Tactic.Ring

/-! # Rounded shares

A share of an amount is a fraction of it, rounded down. The shares of parts of
an amount add up to at most the share of the whole, and to exactly that when no
part rounds away more than the rest can make up.
-/

namespace Foundation

variable {p d a b r : ℤ} {ns : List ℤ}

/-- The fraction `p / d` of an amount, rounded down. -/
def share (p d n : ℤ) : ℤ := n * p / d

/-- What rounding takes from each part is within what it takes from all that is left. -/
def EvenSplit (p d : ℤ) : ℤ → List ℤ → Prop
  | _, [] => True
  | r, n :: ns => n * p % d ≤ r * p % d ∧ EvenSplit p d (r - n) ns

instance decidableEvenSplit (p d r : ℤ) (ns : List ℤ) : Decidable (EvenSplit p d r ns) :=
  match ns with
  | [] => .isTrue trivial
  | n :: ns => @instDecidableAnd _ _ _ (decidableEvenSplit p d (r - n) ns)

theorem ediv_add_ediv (hd : 0 < d) (a b : ℤ) :
    (a + b) / d = a / d + b / d + (a % d + b % d) / d := by
  have ha := Int.mul_ediv_add_emod a d
  have hb := Int.mul_ediv_add_emod b d
  have hsum : a + b = a % d + b % d + d * (a / d + b / d) := by
    rw [mul_add]
    omega
  conv_lhs => rw [hsum, Int.add_mul_ediv_left _ _ hd.ne']
  ring

/-- Rounded parts make up the rounded whole exactly when one rounds away no more than both. -/
theorem ediv_add_eq_iff (hd : 0 < d) : a / d + b / d = (a + b) / d ↔ a % d ≤ (a + b) % d := by
  have ha := Int.emod_nonneg a hd.ne'
  have hb := Int.emod_nonneg b hd.ne'
  have ha' := Int.emod_lt_of_pos a hd
  have hb' := Int.emod_lt_of_pos b hd
  rw [ediv_add_ediv hd, Int.add_emod]
  by_cases hlt : a % d + b % d < d
  · rw [Int.ediv_eq_zero_of_lt (by omega) hlt, Int.emod_eq_of_lt (by omega) hlt]
    omega
  · have hdiv : (a % d + b % d) / d = 1 := by
      rw [Int.ediv_eq_iff_of_pos hd]
      omega
    have hmod := Int.mul_ediv_add_emod (a % d + b % d) d
    rw [hdiv, mul_one] at hmod
    omega

theorem ediv_add_le (hd : 0 < d) : a / d + b / d ≤ (a + b) / d := by
  have ha := Int.emod_nonneg a hd.ne'
  have hb := Int.emod_nonneg b hd.ne'
  rw [ediv_add_ediv hd]
  have := Int.ediv_nonneg (add_nonneg ha hb) hd.le
  omega

theorem share_add_le (hd : 0 < d) : share p d a + share p d b ≤ share p d (a + b) := by
  unfold share
  rw [add_mul]
  exact ediv_add_le hd

theorem share_split_le (hd : 0 < d) :
    (ns.map (share p d)).sum + share p d (r - ns.sum) ≤ share p d r := by
  induction ns generalizing r with
  | nil => simp
  | cons n ns ih =>
    have hrest := ih (r := r - n)
    have hone := share_add_le (p := p) (a := n) (b := r - n) hd
    rw [add_sub_cancel] at hone
    rw [List.map_cons, List.sum_cons, List.sum_cons, ← sub_sub]
    omega

/-- They are the share of the whole exactly when the split is even. -/
theorem share_split_eq_iff (hd : 0 < d) :
    (ns.map (share p d)).sum + share p d (r - ns.sum) = share p d r ↔ EvenSplit p d r ns := by
  induction ns generalizing r with
  | nil => simp [EvenSplit]
  | cons n ns ih =>
    have hle : (ns.map (share p d)).sum + share p d (r - n - ns.sum) ≤ share p d (r - n) :=
      share_split_le hd
    have hone := share_add_le (p := p) (a := n) (b := r - n) hd
    have hfirst : share p d n + share p d (r - n) = share p d r ↔ n * p % d ≤ r * p % d := by
      have hmul : n * p + (r - n) * p = r * p := by ring
      unfold share
      rw [← hmul]
      exact ediv_add_eq_iff hd
    rw [add_sub_cancel] at hone
    rw [EvenSplit, ← hfirst, ← ih, List.map_cons, List.sum_cons, List.sum_cons, ← sub_sub]
    omega

end Foundation
