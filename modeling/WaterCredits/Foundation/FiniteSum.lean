import Mathlib.Algebra.BigOperators.Finprod
import Mathlib.Algebra.Order.BigOperators.Group.Finset
import Mathlib.Algebra.Order.Group.Int
import Mathlib.Tactic.Linarith

/-! # Sums of finitely supported books

A book assigns an integer to every key and is zero outside a finite set. Its
total follows point updates.
-/

namespace Foundation

open Function

variable {α : Type*} {f : α → ℤ}

theorem sum_le_finsum (h : (support f).Finite) (h0 : ∀ a, 0 ≤ f a) (s : Finset α) :
    ∑ a ∈ s, f a ≤ ∑ᶠ a, f a := by
  classical
  have hs : support f ⊆ ↑(s ∪ h.toFinset) := fun b hb => by simp [hb]
  rw [finsum_eq_sum_of_support_subset _ hs]
  exact Finset.sum_le_sum_of_subset_of_nonneg Finset.subset_union_left fun a _ _ => h0 a

theorem le_finsum (h : (support f).Finite) (h0 : ∀ a, 0 ≤ f a) (a : α) : f a ≤ ∑ᶠ b, f b := by
  simpa using sum_le_finsum h h0 {a}

/-- A total backs a book: finitely many non-negative entries add up to it. -/
structure Backed (f : α → ℤ) (n : ℤ) : Prop where
  finite : (support f).Finite
  nonneg : ∀ a, 0 ≤ f a
  total : ∑ᶠ a, f a = n

theorem Backed.le {n : ℤ} (h : Backed f n) (a : α) : f a ≤ n :=
  (le_finsum h.finite h.nonneg a).trans h.total.le

theorem Backed.total_nonneg {n : ℤ} (h : Backed f n) : 0 ≤ n := h.total ▸ finsum_nonneg h.nonneg

theorem backed_zero : Backed (fun _ : α => 0) 0 := ⟨by simp, by simp, by simp⟩

variable [DecidableEq α]

theorem finsum_count (l : List α) :
    (support fun a => l.count a).Finite ∧ ∑ᶠ a, l.count a = l.length := by
  have hs : support (fun a => l.count a) ⊆ ↑l.toFinset := fun a ha => by
    simpa using List.count_pos_iff.mp (Nat.pos_of_ne_zero ha)
  refine ⟨l.toFinset.finite_toSet.subset hs, ?_⟩
  rw [finsum_eq_sum_of_support_subset _ hs, List.sum_toFinset_count_eq_length]

theorem support_update_finite (h : (support f).Finite) (a : α) (v : ℤ) :
    (support (update f a v)).Finite :=
  (h.insert a).subset fun b hb => by
    by_cases hab : b = a
    · exact Or.inl hab
    · exact Or.inr (by simpa [update_of_ne hab] using hb)

theorem finsum_update (h : (support f).Finite) (a : α) (v : ℤ) :
    ∑ᶠ b, update f a v b = ∑ᶠ b, f b - f a + v := by
  have hs : support f ⊆ ↑(insert a h.toFinset) := fun b hb => by simp [hb]
  have hu : support (update f a v) ⊆ ↑(insert a h.toFinset) := fun b hb => by
    by_cases hab : b = a
    · simp [hab]
    · simpa [hab, update_of_ne hab] using hb
  rw [finsum_eq_sum_of_support_subset _ hs, finsum_eq_sum_of_support_subset _ hu,
    Finset.sum_update_of_mem (Finset.mem_insert_self _ _),
    ← Finset.sum_erase_add _ _ (Finset.mem_insert_self a h.toFinset),
    Finset.sdiff_singleton_eq_erase]
  ring

theorem nonneg_update (h : ∀ a, 0 ≤ f a) {a : α} {v : ℤ} (hv : 0 ≤ v) (c : α) :
    0 ≤ update f a v c := by
  by_cases hc : c = a
  · subst hc; simpa using hv
  · simpa [update_of_ne hc] using h c

theorem Backed.post {n : ℤ} (h : Backed f n) (a : α) {d : ℤ} (hd : 0 ≤ f a + d) :
    Backed (update f a (f a + d)) (n + d) where
  finite := support_update_finite h.finite a _
  nonneg := nonneg_update h.nonneg hd
  total := by
    have := h.total
    rw [finsum_update h.finite]; omega

end Foundation
