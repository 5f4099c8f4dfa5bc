import WaterCredits.Foundation.Page

/-! # Scans of a numbered map

A scan runs through the numbers from a start up to a total and collects entries
until it has as many as its limit. The next scan starts after the last entry of
the one before. The counter is a machine word, which must not wrap around.
-/

namespace Foundation

variable {α : Type} {entry : UInt64 → Option α} {key : α → UInt64} {total start : UInt64}
  {limit fuel n : ℕ} {results p r : List α} {a : α}

/-- The loop of a scan, which turns as often as there is fuel. -/
def scanLoop (entry : UInt64 → Option α) (total : UInt64) (limit : ℕ) :
    ℕ → UInt64 → List α → Option (List α)
  | 0, _, _ => none
  | fuel + 1, current, results =>
    if current ≤ total ∧ results.length < limit then
      scanLoop entry total limit fuel (current + 1) (results ++ (entry current).toList)
    else some results

def entriesFrom (entry : UInt64 → Option α) (total start : UInt64) : List α :=
  collect entry start (total.toNat + 1 - start.toNat)

/-- Pages one after another, each from the number after the last entry of the one before. -/
def walk (page : UInt64 → List α) (key : α → UInt64) : ℕ → UInt64 → List α
  | 0, _ => []
  | n + 1, start =>
    page start ++ (page start).getLast?.elim [] fun a => walk page key n (key a + 1)

/-- The entries know their numbers. -/
def Keyed (entry : UInt64 → Option α) (key : α → UInt64) : Prop :=
  ∀ i a, entry i = some a → key a = i

theorem entriesFrom_nil (h : total < start) : entriesFrom entry total start = [] := by
  have hlt := UInt64.lt_iff_toNat_lt.mp h
  rw [entriesFrom, Nat.sub_eq_zero_of_le (by omega), collect]

variable (ht : total.toNat + 1 < 2 ^ 64)

include ht

theorem toNat_succ (h : start ≤ total) : (start + 1).toNat = start.toNat + 1 := by
  have hle := UInt64.le_iff_toNat_le.mp h
  rw [UInt64.toNat_add, UInt64.toNat_one]
  exact Nat.mod_eq_of_lt (by omega)

theorem entriesFrom_cons (h : start ≤ total) :
    entriesFrom entry total start =
      (entry start).toList ++ entriesFrom entry total (start + 1) := by
  have hle := UInt64.le_iff_toNat_le.mp h
  have hcount : total.toNat + 1 - start.toNat = total.toNat + 1 - (start.toNat + 1) + 1 := by omega
  rw [entriesFrom, hcount, collect, entriesFrom, toNat_succ ht h]

theorem upTo_induction {P : UInt64 → Prop} (hdone : ∀ i, total < i → P i)
    (hstep : ∀ i, i ≤ total → P (i + 1) → P i) (i : UInt64) : P i := by
  induction hn : total.toNat + 1 - i.toNat generalizing i with
  | zero =>
    apply hdone
    rw [UInt64.lt_iff_toNat_lt]
    omega
  | succ n ih =>
    have hle : i ≤ total := by
      rw [UInt64.le_iff_toNat_le]
      omega
    refine hstep i hle (ih _ ?_)
    rw [toNat_succ ht hle]
    omega

theorem mem_entriesFrom :
    a ∈ entriesFrom entry total start ↔ ∃ i, start ≤ i ∧ i ≤ total ∧ entry i = some a := by
  induction start using upTo_induction ht with
  | hdone start h =>
    rw [entriesFrom_nil h]
    refine iff_of_false List.not_mem_nil ?_
    rintro ⟨i, hi, hle, -⟩
    exact UInt64.not_le.mpr h (UInt64.le_trans hi hle)
  | hstep start h ih =>
    have hnext := toNat_succ ht h
    rw [entriesFrom_cons ht h, List.mem_append, ih, Option.mem_toList]
    constructor
    · rintro (ha | ⟨i, hi, hle, ha⟩)
      · exact ⟨start, UInt64.le_refl start, h, ha⟩
      · refine ⟨i, ?_, hle, ha⟩
        rw [UInt64.le_iff_toNat_le] at hi ⊢
        omega
    · rintro ⟨i, hi, hle, ha⟩
      rcases eq_or_ne i start with rfl | hne
      · exact .inl ha
      · refine .inr ⟨i, ?_, hle, ha⟩
        have hne : i.toNat ≠ start.toNat := fun heq => hne (UInt64.toNat_inj.mp heq)
        rw [UInt64.le_iff_toNat_le] at hi ⊢
        omega

theorem scanLoop_eq (hf : total.toNat + 1 - start.toNat < fuel) (hl : results.length ≤ limit) :
    scanLoop entry total limit fuel start results =
      some (results ++ (entriesFrom entry total start).take (limit - results.length)) := by
  induction fuel generalizing start results with
  | zero => exact absurd hf (Nat.not_lt_zero _)
  | succ fuel ih =>
    rw [scanLoop]
    split
    · rename_i hgo
      obtain ⟨hle, hroom⟩ := hgo
      have hfuel : total.toNat + 1 - (start + 1).toNat < fuel := by
        have hle := UInt64.le_iff_toNat_le.mp hle
        rw [toNat_succ ht hle]
        omega
      rw [entriesFrom_cons ht hle]
      cases entry start with
      | none => simpa using ih hfuel hl
      | some a =>
        have hlength : (results ++ [a]).length = results.length + 1 := by simp
        obtain ⟨k, hk⟩ := Nat.exists_eq_add_of_lt hroom
        have hleft : limit - results.length = k + 1 := by omega
        have hnext : limit - (results ++ [a]).length = k := by omega
        rw [Option.toList_some, ih hfuel (by omega), hleft, hnext, List.append_assoc]
        rfl
    · rename_i hstop
      rcases not_and_or.mp hstop with hgt | hfull
      · rw [entriesFrom_nil (UInt64.not_le.mp hgt), List.take_nil, List.append_nil]
      · rw [Nat.sub_eq_zero_of_le (not_lt.mp hfull), List.take_zero, List.append_nil]

variable (hk : Keyed entry key)

include hk

theorem entriesFrom_pairwise : (entriesFrom entry total start).Pairwise (key · < key ·) := by
  induction start using upTo_induction ht with
  | hdone start h =>
    rw [entriesFrom_nil h]
    exact .nil
  | hstep start h ih =>
    rw [entriesFrom_cons ht h]
    cases ha : entry start with
    | none => exact ih
    | some a =>
      refine List.pairwise_cons.mpr ⟨fun b hb => ?_, ih⟩
      obtain ⟨i, hi, -, hb⟩ := (mem_entriesFrom ht).mp hb
      have hnext := toNat_succ ht h
      rw [hk _ _ ha, hk _ _ hb, UInt64.lt_iff_toNat_lt]
      rw [UInt64.le_iff_toNat_le] at hi
      omega

theorem entriesFrom_filter {i : UInt64} (hi : i ≤ start) :
    (entriesFrom entry total i).filter (start ≤ key ·) = entriesFrom entry total start := by
  induction i using upTo_induction ht with
  | hdone i h =>
    have hlt : total < start := UInt64.lt_of_lt_of_le h hi
    rw [entriesFrom_nil h, entriesFrom_nil hlt, List.filter_nil]
  | hstep i h ih =>
    rcases eq_or_ne i start with rfl | hne
    · refine List.filter_eq_self.mpr fun a ha => ?_
      obtain ⟨j, hj, -, ha⟩ := (mem_entriesFrom ht).mp ha
      rw [hk _ _ ha]
      exact decide_eq_true hj
    · have hnext := toNat_succ ht h
      have hne : i.toNat ≠ start.toNat := fun heq => hne (UInt64.toNat_inj.mp heq)
      have hbelow : i.toNat < start.toNat := by
        rw [UInt64.le_iff_toNat_le] at hi
        omega
      have hnone : (entry i).toList.filter (start ≤ key ·) = [] := by
        refine List.filter_eq_nil_iff.mpr fun a ha => ?_
        rw [hk _ _ (Option.mem_toList.mp ha), decide_eq_true_iff, UInt64.not_le,
          UInt64.lt_iff_toNat_lt]
        exact hbelow
      rw [entriesFrom_cons ht h, List.filter_append, hnone, List.nil_append]
      apply ih
      rw [UInt64.le_iff_toNat_le]
      omega

theorem entriesFrom_split (h : entriesFrom entry total start = p ++ a :: r) :
    r = entriesFrom entry total (key a + 1) := by
  induction start using upTo_induction ht generalizing p with
  | hdone start hlt => simp [entriesFrom_nil hlt] at h
  | hstep start hle ih =>
    rw [entriesFrom_cons ht hle] at h
    cases hb : entry start with
    | none => exact ih (by simpa [hb] using h)
    | some b =>
      rw [hb, Option.toList_some, List.singleton_append] at h
      cases p with
      | nil =>
        obtain ⟨rfl, rfl⟩ := List.cons.inj h
        rw [hk _ _ hb]
      | cons c p => exact ih (List.cons.inj h).2

theorem walk_eq (hl : 0 < limit) {page : UInt64 → List α}
    (hp : ∀ i, page i = (entriesFrom entry total i).take limit) :
    walk page key n start = (entriesFrom entry total start).take (n * limit) := by
  induction n generalizing start with
  | zero => rw [walk, Nat.zero_mul, List.take_zero]
  | succ n ih =>
    rw [walk, Nat.succ_mul, Nat.add_comm, List.take_add, ← hp]
    congr 1
    rcases List.eq_nil_or_concat' (page start) with hnil | ⟨front, a, hlast⟩
    · have hempty : entriesFrom entry total start = [] := by
        rw [hp, List.take_eq_nil_iff] at hnil
        exact hnil.resolve_left (Nat.ne_of_gt hl)
      rw [hnil, hempty]
      simp
    · have hsplit : entriesFrom entry total start =
          front ++ a :: (entriesFrom entry total start).drop limit := by
        conv_lhs => rw [← List.take_append_drop limit (entriesFrom entry total start), ← hp, hlast]
        simp
      rw [hlast, List.getLast?_concat, Option.elim_some, ih, entriesFrom_split ht hk hsplit]

end Foundation
