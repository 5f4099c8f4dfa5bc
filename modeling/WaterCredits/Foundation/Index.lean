import Mathlib.Data.Set.Card

/-! # Lists that index a predicate

An index lists the keys of which a predicate holds, without duplicates. Setting
the predicate at one key appends the key, and clearing it filters the key out.
-/

namespace Foundation

variable {α : Type*} {P Q : α → Prop} {l : List α} {a : α}

/-- The list has exactly the keys of the predicate, each once. -/
structure Indexes (P : α → Prop) (l : List α) : Prop where
  nodup : l.Nodup
  mem_iff : ∀ a, a ∈ l ↔ P a

namespace Indexes

theorem nil (h : ∀ a, ¬ P a) : Indexes P [] := ⟨List.nodup_nil, fun a => by simp [h a]⟩

theorem congr (h : Indexes P l) (hq : ∀ b, Q b ↔ P b) : Indexes Q l :=
  ⟨h.nodup, fun b => (h.mem_iff b).trans (hq b).symm⟩

theorem cons (h : Indexes P l) (hnew : a ∉ l) (ha : Q a) (hq : ∀ b, b ≠ a → (Q b ↔ P b)) :
    Indexes Q (a :: l) := by
  refine ⟨List.nodup_cons.mpr ⟨hnew, h.nodup⟩, fun b => ?_⟩
  rw [List.mem_cons, h.mem_iff]
  by_cases hb : b = a
  · simp [hb, ha]
  · simp [hb, hq b hb]

theorem finite (h : Indexes P l) : {a | P a}.Finite :=
  l.finite_toSet.subset fun a ha => (h.mem_iff a).mpr ha

theorem ncard_eq (h : Indexes P l) : {a | P a}.ncard = l.length := by
  classical
  have heq : {a | P a} = (l.toFinset : Set α) := by
    ext a
    simp [h.mem_iff a]
  rw [heq, Set.ncard_coe_finset, List.toFinset_card_of_nodup h.nodup]

variable [DecidableEq α]

/-- A key joins the index unless it is there already. -/
theorem insert (h : Indexes P l) (ha : Q a) (hq : ∀ b, b ≠ a → (Q b ↔ P b)) :
    Indexes Q (if a ∈ l then l else l ++ [a]) := by
  split
  · rename_i hmem
    apply h.congr
    intro b
    by_cases hb : b = a
    · subst hb
      exact iff_of_true ha ((h.mem_iff b).mp hmem)
    · exact hq b hb
  · rename_i hmem
    constructor
    · rw [List.nodup_append]
      refine ⟨h.nodup, List.nodup_singleton a, ?_⟩
      rintro b hb c hc rfl
      rw [List.mem_singleton.mp hc] at hb
      exact hmem hb
    · intro b
      rw [List.mem_append, List.mem_singleton, h.mem_iff]
      by_cases hb : b = a
      · simp [hb, ha]
      · simp [hb, hq b hb]

theorem erase (h : Indexes P l) (ha : ¬ Q a) (hq : ∀ b, b ≠ a → (Q b ↔ P b)) :
    Indexes Q (l.filter (· ≠ a)) := by
  refine ⟨h.nodup.filter _, fun b => ?_⟩
  rw [List.mem_filter, h.mem_iff]
  by_cases hb : b = a
  · simp [hb, ha]
  · simp [hb, hq b hb]

theorem length_erase (h : Indexes P l) (ha : P a) :
    (l.filter (· ≠ a)).length + 1 = l.length := by
  have heq : l.filter (· ≠ a) = l.erase a := by
    rw [h.nodup.erase_eq_filter]
    exact List.filter_congr fun b _ => by simp [bne, beq_eq_decide]
  rw [heq]
  exact List.length_erase_add_one ((h.mem_iff a).mpr ha)

theorem card_le (h : Indexes P l) {s : Finset α} (hs : ∀ b ∈ s, P b) : s.card ≤ l.length := by
  have hsub : s ⊆ l.toFinset := fun b hb => List.mem_toFinset.mpr ((h.mem_iff b).mpr (hs b hb))
  calc s.card ≤ l.toFinset.card := Finset.card_le_card hsub
    _ ≤ l.length := l.toFinset_card_le

end Indexes

end Foundation
