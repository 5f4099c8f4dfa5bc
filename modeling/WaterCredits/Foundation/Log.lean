import WaterCredits.Foundation.Journal

/-! # Logs in a numbered map

A log is kept in a map from positions to entries, with a counter for the next
position. The counter is a machine word, so the log is the list of all its
entries as long as the word does not wrap around. Several owners may keep logs in
one map, under keys that name the owner and the position.
-/

namespace Foundation

open Function

variable {α : Type*} {count count' : UInt64} {entry entry' : UInt64 → Option α} {J K : List α}
  {x : α} {i : UInt64}

/-- A counter and a map that have taken the entries of a list. -/
structure Logged (count : UInt64) (entry : UInt64 → Option α) (J : List α) : Prop where
  counter : count = .ofNat J.length
  entries : J.length < 2 ^ 64 → ∀ i, entry i = J[i.toNat]?

namespace Logged

theorem nil : Logged 0 (fun _ => (none : Option α)) [] := ⟨rfl, fun _ _ => rfl⟩

variable (h : Logged count entry J)

include h

theorem append (h' : entry' = update entry count (some x)) :
    Logged (count + 1) entry' (J ++ [x]) := by
  constructor
  · rw [h.counter, List.length_append, List.length_singleton]
    exact UInt64.toNat_inj.mp (by simp [UInt64.toNat_add])
  · intro hlt i
    rw [List.length_append, List.length_singleton] at hlt
    have hcount : count.toNat = J.length := by
      rw [h.counter, UInt64.toNat_ofNat']
      exact Nat.mod_eq_of_lt (by omega)
    rw [h', update_apply, getElem?_concat, h.entries (by omega), ← hcount]
    simp only [UInt64.toNat_inj]

variable (hJ : J.length < 2 ^ 64)

include hJ

theorem toNat_count : count.toNat = J.length := by
  rw [h.counter, UInt64.toNat_ofNat']
  exact Nat.mod_eq_of_lt hJ

/-- The log holds exactly the positions below the counter. -/
theorem isSome_iff : (entry i).isSome = true ↔ i < count := by
  rw [h.entries hJ, UInt64.lt_iff_toNat_lt, h.toNat_count hJ]
  simp

theorem getLast? : J.getLast? = if count = 0 then none else entry (count - 1) := by
  have hcount := h.toNat_count hJ
  rw [List.getLast?_eq_getElem?]
  split
  · rename_i h0
    have hnil : J.length = 0 := by rw [← hcount, h0]; rfl
    rw [List.getElem?_eq_none (by omega)]
  · rename_i h0
    have hpos : 1 ≤ count := by
      rw [UInt64.le_iff_toNat_le]
      have hne : count.toNat ≠ 0 := fun heq => h0 (UInt64.toNat_inj.mp heq)
      simpa using Nat.one_le_iff_ne_zero.mpr hne
    rw [h.entries hJ, UInt64.toNat_sub_of_le _ _ hpos, hcount]
    rfl

theorem sum_entries (amount : α → ℤ) :
    ∑ k ∈ Finset.range count.toNat, (entry (.ofNat k)).elim 0 amount = (J.map amount).sum := by
  rw [h.toNat_count hJ, ← sum_range_getElem?]
  apply Finset.sum_congr rfl
  intro k hk
  have hk : k < 2 ^ 64 := (Finset.mem_range.mp hk).trans hJ
  rw [h.entries hJ, UInt64.toNat_ofNat', Nat.mod_eq_of_lt hk]

omit hJ

theorem mono (h' : Logged count' entry' (J ++ K)) (hK : (J ++ K).length < 2 ^ 64)
    (hi : entry i = some x) : entry' i = some x := by
  have hJ : J.length < 2 ^ 64 := by
    rw [List.length_append] at hK
    omega
  rw [h.entries hJ] at hi
  rw [h'.entries hK]
  exact List.getElem?_append_left (List.getElem?_eq_some_iff.mp hi).1 |>.trans hi

end Logged

section Enumerations

variable {L : List UInt64} {index : UInt64 → Option UInt64} {P : UInt64 → Prop}

/-- The positions below a counter list the numbers of a predicate in increasing order. -/
structure Enumerates (count : UInt64) (index : UInt64 → Option UInt64) (P : UInt64 → Prop) :
    Prop where
  positions : ∀ i, (index i).isSome = true ↔ i < count
  increasing : ∀ i j m n, index i = some m → index j = some n → i < j → m < n
  listed : ∀ n, (∃ i, index i = some n) ↔ P n

theorem Logged.enumerates (h : Logged count index L) (hL : L.length < 2 ^ 64)
    (hgrow : L.Pairwise (· < ·)) (hP : ∀ n, n ∈ L ↔ P n) : Enumerates count index P := by
  constructor
  · exact fun i => h.isSome_iff hL
  · intro i j m n hi hj hlt
    rw [h.entries hL] at hi hj
    obtain ⟨hil, rfl⟩ := List.getElem?_eq_some_iff.mp hi
    obtain ⟨hjl, rfl⟩ := List.getElem?_eq_some_iff.mp hj
    exact List.pairwise_iff_getElem.mp hgrow _ _ hil hjl (UInt64.lt_iff_toNat_lt.mp hlt)
  · intro n
    rw [← hP]
    constructor
    · rintro ⟨i, hi⟩
      rw [h.entries hL] at hi
      exact List.mem_of_getElem? hi
    · intro hn
      obtain ⟨k, hk⟩ := List.mem_iff_getElem?.mp hn
      have hlt : k < 2 ^ 64 := (List.getElem?_eq_some_iff.mp hk).1.trans hL
      exact ⟨.ofNat k, by rw [h.entries hL, UInt64.toNat_ofNat_of_lt' hlt, hk]⟩

end Enumerations

section Owners

variable {E A : Type*} [DecidableEq A] {owner : E → A} {value : E → α} {counts counts' : A → UInt64}
  {entries entries' : A × UInt64 → Option α} {J : List E} {x : E}

/-- Every owner has a log of the values of its entries. -/
def LoggedBy (owner : E → A) (value : E → α) (counts : A → UInt64)
    (entries : A × UInt64 → Option α) (J : List E) : Prop :=
  ∀ a, Logged (counts a) (fun i => entries (a, i)) ((part owner a J).map value)

namespace LoggedBy

theorem nil : LoggedBy owner value (fun _ => 0) (fun _ => none) [] := fun _ => Logged.nil

theorem append (h : LoggedBy owner value counts entries J)
    (hcounts : counts' = update counts (owner x) (counts (owner x) + 1))
    (hentries : entries' = update entries (owner x, counts (owner x)) (some (value x))) :
    LoggedBy owner value counts' entries' (J ++ [x]) := by
  intro a
  rcases eq_or_ne a (owner x) with rfl | hne
  · have hat : (fun i => entries' (owner x, i)) =
        update (fun i => entries (owner x, i)) (counts (owner x)) (some (value x)) := by
      ext i : 1
      simp only [hentries, update_apply, Prod.mk.injEq, true_and]
    rw [part_append_self, List.map_append, List.map_singleton, hcounts, update_self]
    exact (h (owner x)).append hat
  · have hkey : ∀ i, (a, i) ≠ (owner x, counts (owner x)) :=
      fun i heq => hne (congrArg Prod.fst heq)
    simp only [part_append_other hne.symm, hcounts, update_of_ne hne, hentries,
      update_of_ne (hkey _)]
    exact h a

theorem finsum_counts (h : LoggedBy owner value counts entries J) (hJ : J.length < 2 ^ 64) :
    (support fun a => (counts a).toNat).Finite ∧ ∑ᶠ a, (counts a).toNat = J.length := by
  have hlength : (fun a => (counts a).toNat) = fun a => (part owner a J).length := by
    ext a
    rw [(h a).toNat_count, List.length_map]
    rw [List.length_map]
    exact length_part_le.trans_lt hJ
  rw [hlength]
  exact finsum_length_part owner J

end LoggedBy

end Owners

end Foundation
