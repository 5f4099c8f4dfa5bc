import Mathlib.Order.Basic
import Mathlib.Data.Int.Order.Basic
import Mathlib.Order.Lattice
import Mathlib.Tactic.Linarith

/-! # Signed 128-bit integers

A value carries the proof that it lies in the range of the type. Checked
operations fail outside the range and plain operations wrap around, as in a
build without overflow checks. Every fact is stated on the underlying integer.
-/

namespace Foundation

/-- A signed 128-bit integer. -/
structure I128 where
  val : ℤ
  le_val : -2 ^ 127 ≤ val
  val_lt : val < 2 ^ 127
  deriving DecidableEq

namespace I128

/-- The integers that a signed 128-bit word represents. -/
def Fits (n : ℤ) : Prop := -2 ^ 127 ≤ n ∧ n < 2 ^ 127

instance (n : ℤ) : Decidable (Fits n) := inferInstanceAs (Decidable (_ ∧ _))

theorem fits (a : I128) : Fits a.val := ⟨a.le_val, a.val_lt⟩

@[ext] theorem ext {a b : I128} (h : a.val = b.val) : a = b := by
  cases a; cases b; simpa using h

theorem val_injective : Function.Injective val := fun _ _ => ext

theorem wrap_bounds (n : ℤ) : Fits (n.bmod (2 ^ 128)) := by
  have hl := Int.le_bmod (x := n) (m := 2 ^ 128) (by norm_num)
  have hu := Int.bmod_lt (x := n) (m := 2 ^ 128) (by norm_num)
  norm_num at hl hu
  exact ⟨by norm_num; exact hl, by norm_num; exact hu⟩

/-- Reduce an integer to the representative of its class modulo `2 ^ 128`. -/
def wrap (n : ℤ) : I128 := ⟨n.bmod (2 ^ 128), (wrap_bounds n).1, (wrap_bounds n).2⟩

theorem val_wrap {n : ℤ} (h : Fits n) : (wrap n).val = n := by
  unfold Fits at h
  apply Int.bmod_eq_of_le
  · norm_num at h ⊢; exact h.1
  · norm_num at h ⊢; exact h.2

/-- Above the range a value wraps to a negative one. -/
theorem wrap_neg {n : ℤ} (hl : 2 ^ 127 ≤ n) (hu : n < 2 ^ 128) : (wrap n).val < 0 := by
  have hm : n % ((2 ^ 128 : ℕ) : ℤ) = n := Int.emod_eq_of_lt (by omega) (by exact_mod_cast hu)
  have hv : (wrap n).val = n.bmod (2 ^ 128) := rfl
  rw [hv, Int.bmod_def, hm]
  split
  · rename_i h
    norm_num at h hl
    omega
  · norm_num
    norm_num at hu
    omega

instance (n : ℕ) : OfNat I128 n := ⟨wrap n⟩

@[simp] theorem val_zero : (0 : I128).val = 0 := rfl

/-- The largest value of the type. -/
def MAX : I128 := ⟨2 ^ 127 - 1, by norm_num, by norm_num⟩

instance : LinearOrder I128 := LinearOrder.lift' val val_injective

theorem le_iff {a b : I128} : a ≤ b ↔ a.val ≤ b.val := Iff.rfl
theorem lt_iff {a b : I128} : a < b ↔ a.val < b.val := Iff.rfl

instance : Add I128 := ⟨fun a b => wrap (a.val + b.val)⟩
instance : Sub I128 := ⟨fun a b => wrap (a.val - b.val)⟩
instance : Mul I128 := ⟨fun a b => wrap (a.val * b.val)⟩

/-- Division truncating toward zero. -/
instance : Div I128 := ⟨fun a b => wrap (a.val.tdiv b.val)⟩

theorem val_add {a b : I128} (h : Fits (a.val + b.val)) : (a + b).val = a.val + b.val := val_wrap h
theorem val_sub {a b : I128} (h : Fits (a.val - b.val)) : (a - b).val = a.val - b.val := val_wrap h
theorem val_mul {a b : I128} (h : Fits (a.val * b.val)) : (a * b).val = a.val * b.val := val_wrap h
theorem val_div {a b : I128} (h : Fits (a.val.tdiv b.val)) : (a / b).val = a.val.tdiv b.val :=
  val_wrap h

/-- A sum that wraps around falls below the sum of the integers. -/
theorem val_add_le {a b : I128} (h : 0 ≤ b.val) : (a + b).val ≤ a.val + b.val := by
  by_cases hf : Fits (a.val + b.val)
  · exact (val_add hf).le
  · have ha := a.fits
    have hb := b.fits
    unfold Fits at ha hb hf
    have hneg : (wrap (a.val + b.val)).val < 0 := wrap_neg (by omega) (by omega)
    have hv : (a + b).val = (wrap (a.val + b.val)).val := rfl
    omega

theorem val_add_sub {a b c : I128} (h : Fits (a.val + b.val - c.val)) :
    (a + b - c).val = a.val + b.val - c.val := by
  have hv : (a + b - c).val = ((a.val + b.val).bmod (2 ^ 128) - c.val).bmod (2 ^ 128) := rfl
  rw [hv, Int.bmod_sub_bmod]
  exact val_wrap h

/-- The value when the integer is in range. -/
def checked (n : ℤ) : Option I128 := if h : Fits n then some ⟨n, h.1, h.2⟩ else none

@[simp] theorem checked_eq_some {n : ℤ} {c : I128} : checked n = some c ↔ c.val = n := by
  unfold checked
  split
  · simp only [Option.some.injEq, I128.ext_iff, eq_comm]
  · rename_i h
    simp only [reduceCtorEq, false_iff]
    rintro rfl
    exact h c.fits

def checkedAdd (a b : I128) : Option I128 := checked (a.val + b.val)
def checkedSub (a b : I128) : Option I128 := checked (a.val - b.val)
def checkedMul (a b : I128) : Option I128 := checked (a.val * b.val)

/-- Division truncating toward zero, which fails on a zero divisor. -/
def checkedDiv (a b : I128) : Option I128 := if b.val = 0 then none else checked (a.val.tdiv b.val)

@[simp] theorem checkedAdd_eq_some {a b c : I128} :
    a.checkedAdd b = some c ↔ c.val = a.val + b.val := checked_eq_some

@[simp] theorem checkedSub_eq_some {a b c : I128} :
    a.checkedSub b = some c ↔ c.val = a.val - b.val := checked_eq_some

theorem checkedDiv_eq_some {a b c : I128} (hb : b.val ≠ 0) :
    a.checkedDiv b = some c ↔ c.val = a.val.tdiv b.val := by
  rw [checkedDiv, if_neg hb, checked_eq_some]

@[simp] theorem checkedMul_eq_some {a b c : I128} :
    a.checkedMul b = some c ↔ c.val = a.val * b.val := checked_eq_some

theorem fits_sub {a b : I128} (hb : 0 ≤ b.val) (h : b.val ≤ a.val) : Fits (a.val - b.val) :=
  ⟨by omega, by have := a.val_lt; omega⟩

theorem val_sub_of_le {a b : I128} (hb : 0 ≤ b.val) (h : b.val ≤ a.val) :
    (a - b).val = a.val - b.val :=
  val_sub (fits_sub hb h)

theorem add_zero (a : I128) : a + 0 = a :=
  I128.ext (by rw [val_add (by simpa using a.fits), val_zero, Int.add_zero])

theorem sub_zero (a : I128) : a - 0 = a := by
  have hfits : Fits (a.val - (0 : I128).val) := by
    rw [val_zero, Int.sub_zero]
    exact a.fits
  apply ext
  rw [val_sub hfits, val_zero, Int.sub_zero]

theorem sub_sub_sub_of_le {a b c : I128} (hc : 0 ≤ c.val) (hcb : c.val ≤ b.val)
    (hba : b.val ≤ a.val) : a - c - (b - c) = a - b := by
  have hac : (a - c).val = a.val - c.val := val_sub_of_le hc (hcb.trans hba)
  have hbc : (b - c).val = b.val - c.val := val_sub_of_le hc hcb
  apply ext
  rw [val_sub_of_le (by omega) (by omega), val_sub_of_le (by omega) hba, hac, hbc]
  omega

/-- Adding back what was taken away, without leaving the range, restores the value. -/
theorem eq_of_val_sub_add {a b c : I128} (h : c.val = (a - b).val + b.val) : c = a := by
  apply ext
  have hv : (a - b).val = (a.val - b.val).bmod (2 ^ 128) := rfl
  rw [hv, Int.bmod_def] at h
  have ha := a.fits
  have hc := c.fits
  unfold Fits at ha hc
  split at h <;> omega

theorem val_div_of_nonneg {a b : I128} (ha : 0 ≤ a.val) (hb : 0 < b.val) :
    (a / b).val = a.val / b.val := by
  have ht : a.val.tdiv b.val = a.val / b.val := Int.tdiv_eq_ediv_of_nonneg ha
  have h0 : 0 ≤ a.val / b.val := Int.ediv_nonneg ha hb.le
  have hle : a.val / b.val ≤ a.val := Int.ediv_le_self _ ha
  have hlt := a.val_lt
  have hw : (a / b).val = (wrap (a.val.tdiv b.val)).val := rfl
  rw [hw, ht]
  exact val_wrap ⟨by omega, by omega⟩

theorem natAbs_tdiv_le (a : ℤ) {b : ℤ} (hb : 2 ≤ b) : (a.tdiv b).natAbs ≤ a.natAbs / 2 := by
  rw [Int.natAbs_tdiv]
  exact Nat.div_le_div_left (by omega) (by norm_num)

theorem fits_tdiv (a : I128) {b : ℤ} (hb : 2 ≤ b) : Fits (a.val.tdiv b) := by
  have ha := a.fits
  have habs := natAbs_tdiv_le a.val hb
  unfold Fits at ha ⊢
  omega

theorem neg_lt_val_div (a : I128) {b : I128} (hb : 2 ≤ b.val) : -2 ^ 127 < (a / b).val := by
  have ha := a.fits
  have habs := natAbs_tdiv_le a.val hb
  rw [val_div (fits_tdiv a hb)]
  unfold Fits at ha
  omega

theorem exists_add_eq (a b t : I128) : ∃ n, a + n + b = t := by
  refine ⟨wrap (t.val - a.val - b.val), ext ?_⟩
  change ((a.val + (t.val - a.val - b.val).bmod (2 ^ 128)).bmod (2 ^ 128) + b.val).bmod (2 ^ 128) =
    t.val
  have hsum : a.val + (t.val - a.val - b.val) + b.val = t.val := by omega
  rw [Int.bmod_add_bmod, Int.add_right_comm, Int.add_bmod_bmod, Int.add_right_comm, hsum]
  exact val_wrap t.fits

theorem val_min (a b : I128) : (min a b).val = min a.val b.val := by
  rcases le_total a b with h | h
  · rw [min_eq_left h, min_eq_left (le_iff.mp h)]
  · rw [min_eq_right h, min_eq_right (le_iff.mp h)]

theorem val_max (a b : I128) : (max a b).val = max a.val b.val := by
  rcases le_total a b with h | h
  · rw [max_eq_right h, max_eq_right (le_iff.mp h)]
  · rw [max_eq_left h, max_eq_left (le_iff.mp h)]

end I128

end Foundation
