import WaterCredits.Foundation.FiniteSum
import Mathlib.Algebra.BigOperators.Fin
import Mathlib.Data.List.Nodup

/-! # Journals

A journal lists entries in the order in which they were made. Each entry has an
owner and a number, and the parts of the owners make up the journal.
-/

namespace Foundation

open Function

variable {E A : Type*} {J : List E} {x y : E} {a : A} {amount : E → ℤ} {number : E → ℕ}

theorem sum_range_getElem? (amount : E → ℤ) (J : List E) :
    ∑ k ∈ Finset.range J.length, J[k]?.elim 0 amount = (J.map amount).sum := by
  rw [Finset.sum_range, ← Fin.sum_univ_fun_getElem]
  exact Finset.sum_congr rfl fun k _ => by simp

theorem getElem?_concat (J : List E) (x : E) (k : ℕ) :
    (J ++ [x])[k]? = if k = J.length then some x else J[k]? := by
  split
  · rename_i hk
    rw [hk, List.getElem?_concat_length]
  · rename_i hk
    rcases Nat.lt_or_gt_of_ne hk with hlt | hgt
    · rw [List.getElem?_append_left hlt]
    · rw [List.getElem?_eq_none hgt.le, List.getElem?_eq_none (by simp; omega)]

theorem forall_getElem?_concat {P : ℕ → E → Prop} (h : ∀ k y, J[k]? = some y → P k y)
    (hx : P J.length x) (k : ℕ) (y : E) (hy : (J ++ [x])[k]? = some y) : P k y := by
  rw [getElem?_concat] at hy
  split at hy
  · rename_i hk
    exact hk ▸ Option.some.inj hy ▸ hx
  · exact h k y hy

/-- Entries are numbered by their positions, from one on. -/
def Numbered (number : E → ℕ) (J : List E) : Prop := ∀ k x, J[k]? = some x → number x = k + 1

namespace Numbered

theorem nil : Numbered number [] := fun k x h => by simp at h

theorem append (h : Numbered number J) (hx : number x = J.length + 1) :
    Numbered number (J ++ [x]) :=
  forall_getElem?_concat h hx

theorem le (h : Numbered number J) (hx : x ∈ J) : number x ≤ J.length := by
  obtain ⟨k, hk⟩ := List.mem_iff_getElem?.mp hx
  have hlt := (List.getElem?_eq_some_iff.mp hk).1
  rw [h k x hk]
  exact hlt

theorem inj (h : Numbered number J) (hx : x ∈ J) (hy : y ∈ J) (heq : number x = number y) :
    x = y := by
  obtain ⟨k, hk⟩ := List.mem_iff_getElem?.mp hx
  obtain ⟨l, hl⟩ := List.mem_iff_getElem?.mp hy
  have hkl : k = l := by
    have h1 := h k x hk
    have h2 := h l y hl
    omega
  rw [hkl, hl] at hk
  exact (Option.some.inj hk).symm

theorem increasing (h : Numbered number J) : (J.map number).Pairwise (· < ·) := by
  rw [List.pairwise_map, List.pairwise_iff_getElem]
  intro k l hk hl hlt
  rw [h k _ (List.getElem?_eq_getElem hk), h l _ (List.getElem?_eq_getElem hl)]
  omega

theorem nodup (h : Numbered number J) : J.Nodup := by
  apply List.nodup_iff_injective_get.mpr
  intro k l heq
  have h1 := h k _ (List.getElem?_eq_getElem k.isLt)
  have h2 := h l _ (List.getElem?_eq_getElem l.isLt)
  have hkl : J[k] = J[l] := heq
  simp only [Fin.getElem_fin] at hkl
  rw [hkl] at h1
  exact Fin.ext (by omega)

end Numbered

section Parts

variable [DecidableEq A] (owner : E → A)

def part (a : A) (J : List E) : List E := J.filter fun x => owner x = a

variable {owner}

theorem mem_part : x ∈ part owner a J ↔ x ∈ J ∧ owner x = a := by simp [part]

theorem part_append_self : part owner (owner x) (J ++ [x]) = part owner (owner x) J ++ [x] := by
  simp [part]

theorem part_append_other (h : owner x ≠ a) : part owner a (J ++ [x]) = part owner a J := by
  simp [part, h]

theorem length_part_le : (part owner a J).length ≤ J.length := List.length_filter_le _ _

theorem length_part : (part owner a J).length = (J.map owner).count a := by
  rw [part, ← List.countP_eq_length_filter, List.count_eq_countP, List.countP_map]
  exact List.countP_congr fun x _ => by simp

theorem finsum_length_part (owner : E → A) (J : List E) :
    (support fun a => (part owner a J).length).Finite ∧
      ∑ᶠ a, (part owner a J).length = J.length := by
  simpa only [length_part, List.length_map] using finsum_count (J.map owner)

theorem sum_part_le (h : ∀ x ∈ J, 0 ≤ amount x) :
    ((part owner a J).map amount).sum ≤ (J.map amount).sum := by
  induction J with
  | nil => exact le_rfl
  | cons x J ih =>
    have hx := h x (List.mem_cons_self ..)
    have hJ := ih fun y hy => h y (List.mem_cons_of_mem _ hy)
    unfold part at hJ ⊢
    rw [List.filter_cons, List.map_cons, List.sum_cons]
    split
    · rw [List.map_cons, List.sum_cons]
      omega
    · omega

theorem finsum_part (owner : E → A) (amount : E → ℤ) (J : List E) :
    (support fun a => ((part owner a J).map amount).sum).Finite ∧
      ∑ᶠ a, ((part owner a J).map amount).sum = (J.map amount).sum := by
  induction J with
  | nil => simp [part]
  | cons x J ih =>
    obtain ⟨hf, hs⟩ := ih
    have hupdate : (fun a => ((part owner a (x :: J)).map amount).sum) =
        update (fun a => ((part owner a J).map amount).sum) (owner x)
          (((part owner (owner x) J).map amount).sum + amount x) := by
      ext a
      rcases eq_or_ne a (owner x) with rfl | hne
      · simp [part, add_comm]
      · simp [part, update_of_ne hne, hne.symm]
    rw [hupdate]
    refine ⟨support_update_finite hf _ _, ?_⟩
    rw [finsum_update hf, hs, List.map_cons, List.sum_cons]
    omega

end Parts

end Foundation
