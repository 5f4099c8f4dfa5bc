import Mathlib.Data.List.Dedup
import Mathlib.Data.List.GetD
import Mathlib.Data.List.Sort
import Mathlib.Tactic.Linarith

/-! # Ranks in sorted lists

The entry at a position of a sorted list has that many entries below it and the
rest above it. So a minority of the entries, wherever they lie, leaves the
middle of the list between two entries of the majority.
-/

namespace Foundation

variable {α : Type*} [LinearOrder α] {s t l good bad : List α} {i : ℕ}

/-- The entries of a list in increasing order. -/
structure Arranges (s l : List α) : Prop where
  perm : s.Perm l
  sorted : s.Pairwise (· ≤ ·)

namespace Arranges

theorem unique (hs : Arranges s l) (ht : Arranges t l) : s = t :=
  (hs.perm.trans ht.perm.symm).eq_of_pairwise (fun _ _ _ _ => le_antisymm) hs.sorted ht.sorted

theorem congr (h : Arranges s l) (hp : l.Perm t) : Arranges s t := ⟨h.perm.trans hp, h.sorted⟩

theorem getElem_mono (h : Arranges s l) {j : ℕ} (hij : i ≤ j) (hj : j < s.length) :
    s[i] ≤ s[j] := by
  rcases hij.eq_or_lt with rfl | hlt
  · exact le_rfl
  · exact List.pairwise_iff_getElem.mp h.sorted i j _ hj hlt

theorem rank_le (h : Arranges s l) (hi : i < s.length) : i + 1 ≤ l.countP (· ≤ s[i]) := by
  have hall : (s.take (i + 1)).countP (· ≤ s[i]) = (s.take (i + 1)).length := by
    apply List.countP_eq_length.mpr
    intro a ha
    obtain ⟨j, hj, rfl⟩ := List.mem_take_iff_getElem.mp ha
    simpa using h.getElem_mono (by omega) hi
  have hsub : (s.take (i + 1)).countP (· ≤ s[i]) ≤ s.countP (· ≤ s[i]) :=
    (List.take_sublist ..).countP_le
  rw [hall, List.length_take, h.perm.countP_eq] at hsub
  omega

theorem rank_ge (h : Arranges s l) (hi : i < s.length) : s.length - i ≤ l.countP (s[i] ≤ ·) := by
  have hall : (s.drop i).countP (s[i] ≤ ·) = (s.drop i).length := by
    apply List.countP_eq_length.mpr
    intro a ha
    obtain ⟨j, hj, rfl⟩ := List.mem_drop_iff_getElem.mp ha
    simpa using h.getElem_mono (Nat.le_add_right i j) (by omega)
  have hsub : (s.drop i).countP (s[i] ≤ ·) ≤ s.countP (s[i] ≤ ·) := (List.drop_sublist ..).countP_le
  rwa [hall, List.length_drop, h.perm.countP_eq] at hsub

theorem exists_le (h : Arranges s l) (hp : l.Perm (good ++ bad)) (hi : i < s.length)
    (hb : bad.length ≤ i) : ∃ a ∈ good, a ≤ s[i] := by
  have hrank := h.rank_le hi
  rw [hp.countP_eq, List.countP_append] at hrank
  have hbad := bad.countP_le_length (p := (· ≤ s[i]))
  obtain ⟨a, ha, hle⟩ := List.countP_pos_iff.mp (show 0 < good.countP (· ≤ s[i]) by omega)
  exact ⟨a, ha, by simpa using hle⟩

theorem exists_ge (h : Arranges s l) (hp : l.Perm (good ++ bad)) (hi : i < s.length)
    (hb : bad.length + i < s.length) : ∃ a ∈ good, s[i] ≤ a := by
  have hrank := h.rank_ge hi
  rw [hp.countP_eq, List.countP_append] at hrank
  have hbad := bad.countP_le_length (p := (s[i] ≤ ·))
  obtain ⟨a, ha, hle⟩ := List.countP_pos_iff.mp (show 0 < good.countP (s[i] ≤ ·) by omega)
  exact ⟨a, ha, by simpa using hle⟩

end Arranges

section Middle

/-- The middle entry, or the average of the two middle entries, truncated toward zero. -/
def middle (s : List ℤ) : ℤ :=
  if s.length % 2 = 0 then (s.getD (s.length / 2 - 1) 0 + s.getD (s.length / 2) 0).tdiv 2
  else s.getD (s.length / 2) 0

theorem average_self (c : ℤ) : (c * 2).tdiv 2 = c := Int.mul_tdiv_cancel c (by norm_num)

theorem le_average {a b c : ℤ} (ha : c ≤ a) (hb : c ≤ b) : c ≤ (a + b).tdiv 2 := by
  calc c = (c * 2).tdiv 2 := (average_self c).symm
    _ ≤ (a + b).tdiv 2 := Int.tdiv_le_tdiv (by norm_num) (by omega)

theorem average_le {a b c : ℤ} (ha : a ≤ c) (hb : b ≤ c) : (a + b).tdiv 2 ≤ c := by
  calc (a + b).tdiv 2 ≤ (c * 2).tdiv 2 := Int.tdiv_le_tdiv (by norm_num) (by omega)
    _ = c := average_self c

theorem middle_between {s l good bad : List ℤ} (h : Arranges s l) (hp : l.Perm (good ++ bad))
    (hb : 2 * bad.length < l.length) :
    (∃ a ∈ good, a ≤ middle s) ∧ ∃ a ∈ good, middle s ≤ a := by
  have hlen := h.perm.length_eq
  have hhalf : s.length / 2 < s.length := by omega
  unfold middle
  split
  · rename_i heven
    have hprev : s.length / 2 - 1 < s.length := by omega
    rw [List.getD_eq_getElem _ _ hprev, List.getD_eq_getElem _ _ hhalf]
    have hmono := h.getElem_mono (i := s.length / 2 - 1) (by omega) hhalf
    obtain ⟨a, ha, hle⟩ := h.exists_le hp hprev (by omega)
    obtain ⟨b, hb, hge⟩ := h.exists_ge hp hhalf (by omega)
    exact ⟨⟨a, ha, le_average hle (hle.trans hmono)⟩, b, hb, average_le (hmono.trans hge) hge⟩
  · rename_i hodd
    rw [List.getD_eq_getElem _ _ hhalf]
    exact ⟨h.exists_le hp hhalf (by omega), h.exists_ge hp hhalf (by omega)⟩

theorem lt_middle {s l good bad : List ℤ} {c : ℤ} (h : Arranges s l) (hp : l.Perm (good ++ bad))
    (hb : 2 * bad.length ≤ l.length) (hne : l ≠ []) (hgood : ∀ a ∈ good, c + 2 ≤ a)
    (hall : ∀ a ∈ l, c ≤ a) : c < middle s := by
  have hlen := h.perm.length_eq
  have hpos := List.length_pos_of_ne_nil hne
  have hhalf : s.length / 2 < s.length := by omega
  obtain ⟨a, ha, hle⟩ := h.exists_le hp hhalf (by omega)
  have hlift : c + 2 ≤ s[s.length / 2] := (hgood a ha).trans hle
  unfold middle
  split
  · have hprev : s.length / 2 - 1 < s.length := by omega
    rw [List.getD_eq_getElem _ _ hprev, List.getD_eq_getElem _ _ hhalf]
    have hlow := hall _ (h.perm.mem_iff.mp (List.getElem_mem hprev))
    have hsum := Int.tdiv_le_tdiv (c := 2) (by norm_num)
      (show (c + 1) * 2 ≤ s[s.length / 2 - 1] + s[s.length / 2] by omega)
    rw [average_self] at hsum
    omega
  · rw [List.getD_eq_getElem _ _ hhalf]
    omega

end Middle

section Distinct

variable {β : Type*} [DecidableEq β] {key : β → ℕ} {m : List β} {n : ℕ}

/-- The distinct members of a list, with increasing keys. -/
def ascending (key : β → ℕ) (m : List β) : List β :=
  m.dedup.mergeSort fun a b => key a ≤ key b

theorem ascending_perm : (ascending key m).Perm m.dedup := List.mergeSort_perm _ _

theorem ascending_increasing (hkey : Function.Injective key) :
    (ascending key m).Pairwise fun a b => key a < key b := by
  have hsorted : (ascending key m).Pairwise fun a b => decide (key a ≤ key b) := by
    apply List.pairwise_mergeSort
    · intro a b c hab hbc
      simp only [decide_eq_true_eq] at hab hbc ⊢
      exact hab.trans hbc
    · intro a b
      simpa using Nat.le_total (key a) (key b)
  have hdistinct : (ascending key m).Pairwise (· ≠ ·) := ascending_perm.nodup_iff.mpr m.nodup_dedup
  refine (hsorted.and hdistinct).imp fun h => ?_
  obtain ⟨hle, hne⟩ := h
  exact lt_of_le_of_ne (of_decide_eq_true hle) fun heq => hne (hkey heq)

/-- A list has `n` members with increasing keys exactly when it has `n` distinct members. -/
theorem exists_increasing_iff (hkey : Function.Injective key) :
    (∃ s : List β, n ≤ s.length ∧ (s.Pairwise fun a b => key a < key b) ∧ s ⊆ m) ↔
      n ≤ m.dedup.length := by
  constructor
  · rintro ⟨s, hn, hs, hsub⟩
    have hnodup : s.Nodup := hs.imp fun hlt heq => hlt.ne (congrArg key heq)
    have hsub : s ⊆ m.dedup := fun a ha => List.mem_dedup.mpr (hsub ha)
    exact hn.trans (List.subperm_of_subset hnodup hsub).length_le
  · intro hn
    refine ⟨ascending key m, ?_, ascending_increasing hkey, fun a ha => ?_⟩
    · rwa [ascending_perm.length_eq]
    · exact List.mem_dedup.mp (ascending_perm.mem_iff.mp ha)

end Distinct

end Foundation
