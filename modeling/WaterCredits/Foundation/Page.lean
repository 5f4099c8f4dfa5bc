import WaterCredits.Foundation.Log
import WaterCredits.Foundation.Result

/-! # Pages of a list in a numbered map

The entries of a list stand at the positions of a map below a total. A page
collects the entries at the positions from an offset on, up to a limit. The end of
the page is computed in machine words, with an addition that may overflow.
-/

namespace Foundation

open Function

variable {ε : Type*} {α β : Type} {total i : UInt64} {entry entry' : UInt64 → Option α}
  {offset : UInt64} {limit : UInt32} {L : List α}

/-- What a build does where the plain addition of two words overflows. -/
inductive Overflow
  | wrapping
  | panicking

/-- The plain addition of two words. -/
def Overflow.add (a b : UInt64) : Overflow → Option UInt64
  | wrapping => some (a + b)
  | panicking => if a.toNat + b.toNat < 2 ^ 64 then some (a + b) else none

/-- The addition that stops at the greatest word. -/
def saturatingAdd (a b : UInt64) : UInt64 :=
  if a.toNat + b.toNat < 2 ^ 64 then a + b else 18446744073709551615

/-- The entries at `n` positions from `pos` on, without the missing ones. -/
def collect (entry : UInt64 → Option α) (pos : UInt64) : ℕ → List α
  | 0 => []
  | n + 1 => (entry pos).toList ++ collect entry (pos + 1) n

/-- The entries at the positions `offset ≤ i < last`. -/
def collectTo (entry : UInt64 → Option α) (offset last : UInt64) : List α :=
  collect entry offset (last.toNat - offset.toNat)

/-- A page whose end is found with the plain addition. -/
def plainPage (err : ε) (mode : Overflow) (total : UInt64) (entry : UInt64 → Option α)
    (offset : UInt64) (limit : UInt32) : Except ε (List α) := do
  let last ← expect (mode.add offset limit.toUInt64) err
  return collectTo entry offset (min last total)

/-- A page whose end is found with the saturating addition. -/
def saturatedPage (total : UInt64) (entry : UInt64 → Option α) (offset : UInt64)
    (limit : UInt32) : Except ε (List α) :=
  return collectTo entry offset (min (saturatingAdd offset limit.toUInt64) total)

/-- The first `n` pages, one after another. -/
def chain (get : UInt64 → UInt32 → Except ε (List α)) (limit : UInt32) : ℕ → Except ε (List α)
  | 0 => return []
  | n + 1 => do
      let front ← chain get limit n
      let back ← get (.ofNat (n * limit.toNat)) limit
      return front ++ back

/-- The entries of a list that a page is to have. -/
def slice (L : List α) (offset : UInt64) (limit : UInt32) : List α :=
  (L.drop offset.toNat).take limit.toNat

/-- The positions below the total hold the entries of a list. -/
structure Lists (total : UInt64) (entry : UInt64 → Option α) (L : List α) : Prop where
  length : L.length = total.toNat
  entries : ∀ i, i < total → entry i = L[i.toNat]?

section Filled

/-- No position below the total is missing. -/
def Filled (total : UInt64) (entry : UInt64 → Option α) : Prop :=
  ∀ i, i < total → (entry i).isSome = true

theorem toNat_succ_le {n : UInt64} : (n + 1).toNat ≤ n.toNat + 1 := by
  rw [UInt64.toNat_add, UInt64.toNat_one]
  exact Nat.mod_le _ _

/-- One more entry; where the total wraps around, no position is left below it. -/
theorem Filled.append (h : Filled total entry) (hnew : (entry' total).isSome = true)
    (hkeep : ∀ i, (entry i).isSome = true → (entry' i).isSome = true) :
    Filled (total + 1) entry' := by
  intro i hi
  rw [UInt64.lt_iff_toNat_lt] at hi
  have hle := hi.trans_le toNat_succ_le
  rcases Nat.lt_succ_iff_lt_or_eq.mp hle with hlt | heq
  · exact hkeep i (h i (UInt64.lt_iff_toNat_lt.mpr hlt))
  · rwa [UInt64.toNat_inj.mp heq]

theorem Filled.append_owned {A : Type*} [DecidableEq A] {a : A} {totals totals' : A → UInt64}
    {entries entries' : A → UInt64 → Option α} (h : ∀ b, Filled (totals b) (entries b))
    (htotals : totals' = update totals a (totals a + 1))
    (hnew : (entries' a (totals a)).isSome = true)
    (hkeep : ∀ b i, (entries b i).isSome = true → (entries' b i).isSome = true) (b : A) :
    Filled (totals' b) (entries' b) := by
  rcases eq_or_ne b a with rfl | hne
  · rw [htotals, update_self]
    exact (h b).append hnew (hkeep b)
  · rw [htotals, update_of_ne hne]
    exact fun i hi => hkeep b i (h b i hi)

/-- The entries of a map without missing positions are a list. -/
theorem Filled.lists (h : Filled total entry) : ∃ L, Lists total entry L := by
  refine ⟨List.ofFn fun k : Fin total.toNat => (entry (.ofNat k)).get (h _ ?_), ?_, ?_⟩
  · have hk := k.isLt.trans total.toNat_lt
    rw [UInt64.lt_iff_toNat_lt, UInt64.toNat_ofNat_of_lt' hk]
    exact k.isLt
  · rw [List.length_ofFn]
  · intro i hi
    rw [List.getElem?_ofFn, dif_pos (UInt64.lt_iff_toNat_lt.mp hi)]
    simp

end Filled

section Slices

theorem toNat_min (a b : UInt64) : (min a b).toNat = min a.toNat b.toNat := by
  change (if a ≤ b then a else b).toNat = _
  simp only [UInt64.le_iff_toNat_le, Nat.min_def]
  split <;> rfl

theorem toNat_saturatingAdd (a b : UInt64) :
    (saturatingAdd a b).toNat = min (a.toNat + b.toNat) (2 ^ 64 - 1) := by
  unfold saturatingAdd
  split
  · rename_i hlt
    rw [UInt64.toNat_add, Nat.mod_eq_of_lt hlt]
    omega
  · simp only [UInt64.reduceToNat]
    omega

variable (h : Lists total entry L)

include h

theorem Lists.collect_eq {n : ℕ} (hn : offset.toNat + n ≤ total.toNat) :
    collect entry offset n = (L.drop offset.toNat).take n := by
  induction n generalizing offset with
  | zero => rw [collect, List.take_zero]
  | succ n ih =>
    have htotal := total.toNat_lt
    have hlt : offset.toNat < L.length := by
      rw [h.length]
      omega
    have hnext : (offset + 1).toNat = offset.toNat + 1 := by
      rw [UInt64.toNat_add, UInt64.toNat_one]
      exact Nat.mod_eq_of_lt (by omega)
    have hentry : entry offset = some L[offset.toNat] := by
      rw [h.entries _ (UInt64.lt_iff_toNat_lt.mpr (h.length ▸ hlt)), List.getElem?_eq_getElem hlt]
    rw [collect, hentry, ih (by omega), hnext, List.drop_eq_getElem_cons hlt, List.take_succ_cons]
    rfl

theorem Lists.collectTo_eq {last : UInt64}
    (hlast : min last.toNat total.toNat = min (offset.toNat + limit.toNat) total.toNat) :
    collectTo entry offset (min last total) = slice L offset limit := by
  rw [collectTo, toNat_min, hlast, slice]
  rcases Nat.lt_or_ge total.toNat offset.toNat with hlt | hge
  · rw [Nat.sub_eq_zero_of_le (by omega), collect, List.drop_eq_nil_of_le (h.length ▸ hlt.le),
      List.take_nil]
  · rw [h.collect_eq (by omega), List.take_eq_take_iff, List.length_drop, h.length]
    omega

theorem Lists.saturatedPage_eq :
    (saturatedPage total entry offset limit : Except ε (List α)) = .ok (slice L offset limit) := by
  have htotal := total.toNat_lt
  refine congrArg Except.ok (h.collectTo_eq ?_)
  rw [toNat_saturatingAdd, UInt32.toNat_toUInt64]
  omega

variable {err : ε}

theorem Lists.plainPage_eq (hlt : offset.toNat + limit.toNat < 2 ^ 64) (mode : Overflow) :
    plainPage err mode total entry offset limit = .ok (slice L offset limit) := by
  have hadd : mode.add offset limit.toUInt64 = some (offset + limit.toUInt64) := by
    cases mode with
    | wrapping => rfl
    | panicking => exact if_pos (by rwa [UInt32.toNat_toUInt64])
  have hlast : (offset + limit.toUInt64).toNat = offset.toNat + limit.toNat := by
    rw [UInt64.toNat_add, UInt32.toNat_toUInt64, Nat.mod_eq_of_lt hlt]
  rw [plainPage, hadd]
  exact congrArg Except.ok (h.collectTo_eq (by rw [hlast]))

omit h in
theorem plainPage_overflow (err : ε) (total : UInt64) (entry : UInt64 → Option α)
    (hge : 2 ^ 64 ≤ offset.toNat + limit.toNat) :
    plainPage err .wrapping total entry offset limit = .ok [] ∧
      plainPage err .panicking total entry offset limit = .error err := by
  have hoffset := offset.toNat_lt
  have hlimit := limit.toNat_lt
  constructor
  · have hlast : (offset + limit.toUInt64).toNat < offset.toNat := by
      rw [UInt64.toNat_add, UInt32.toNat_toUInt64]
      omega
    have hnone : (min (offset + limit.toUInt64) total).toNat - offset.toNat = 0 := by
      rw [toNat_min]
      omega
    simp only [plainPage, Overflow.add, expect, ok_bind, collectTo, hnone]
    rfl
  · have hnone : Overflow.panicking.add offset limit.toUInt64 = none := by
      apply if_neg
      rw [UInt32.toNat_toUInt64]
      omega
    rw [plainPage, hnone]
    rfl

end Slices

section Pages

variable {get : UInt64 → UInt32 → Except ε (List α)} {err : ε} {n : ℕ}

theorem chain_eq (hget : ∀ k < n, get (.ofNat (k * limit.toNat)) limit =
      .ok (slice L (.ofNat (k * limit.toNat)) limit))
    (hfit : ∀ k < n, k * limit.toNat < 2 ^ 64) :
    chain get limit n = .ok (L.take (n * limit.toNat)) := by
  induction n with
  | zero => rw [Nat.zero_mul, List.take_zero, chain]; rfl
  | succ n ih =>
    have hfront := ih (fun k hk => hget k (hk.trans n.lt_succ_self))
      fun k hk => hfit k (hk.trans n.lt_succ_self)
    rw [chain, hfront, hget n n.lt_succ_self, slice,
      UInt64.toNat_ofNat_of_lt' (hfit n n.lt_succ_self), Nat.succ_mul, List.take_add]
    rfl

theorem exists_of_chain {l : List α} (h : chain get limit n = .ok l) :
    ∀ k < n, ∃ page, get (.ofNat (k * limit.toNat)) limit = .ok page := by
  induction n generalizing l with
  | zero => exact fun k hk => absurd hk k.not_lt_zero
  | succ n ih =>
    simp only [chain, bind_eq_ok] at h
    obtain ⟨front, hfront, back, hback, -⟩ := h
    intro k hk
    rcases Nat.lt_succ_iff_lt_or_eq.mp hk with hlt | rfl
    · exact ih hfront k hlt
    · exact ⟨back, hback⟩

/-- When a paginator that adds without a check pages through a list exactly. -/
structure PlainPages (get : Overflow → UInt64 → UInt32 → Except ε (List α)) (L : List α) :
    Prop where
  exact_iff : ∀ offset limit, (∀ mode, get mode offset limit = .ok (slice L offset limit)) ↔
    offset.toNat + limit.toNat < 2 ^ 64
  wrapping_iff : ∀ offset limit, get .wrapping offset limit = .ok (slice L offset limit) ↔
    offset.toNat + limit.toNat < 2 ^ 64 ∨ L.length ≤ offset.toNat
  chain_iff : ∀ limit n, L.length ≤ n * limit.toNat → (∀ k < n, k * limit.toNat < 2 ^ 64) →
    ((∀ mode, chain (get mode) limit n = .ok L) ↔ n * limit.toNat < 2 ^ 64)

/-- A paginator pages through a list exactly. -/
structure ExactPages (get : UInt64 → UInt32 → Except ε (List α)) (L : List α) : Prop where
  exact : ∀ offset limit, get offset limit = .ok (slice L offset limit)
  chain : ∀ limit n, L.length ≤ n * limit.toNat → (∀ k < n, k * limit.toNat < 2 ^ 64) →
    chain get limit n = .ok L

variable (h : Lists total entry L)

include h

theorem Lists.exactPages :
    ExactPages (saturatedPage total entry : _ → _ → Except ε (List α)) L := by
  constructor
  · exact fun offset limit => h.saturatedPage_eq
  · intro limit n hlength hfit
    rw [chain_eq (fun k _ => h.saturatedPage_eq) hfit, List.take_of_length_le hlength]

theorem Lists.plainPages : PlainPages (fun mode => plainPage err mode total entry) L := by
  have hexact : ∀ offset limit,
      (∀ mode, plainPage err mode total entry offset limit = .ok (slice L offset limit)) ↔
        offset.toNat + limit.toNat < 2 ^ 64 := by
    intro offset limit
    refine ⟨fun hpage => ?_, h.plainPage_eq⟩
    by_contra hge
    have hpanic := (plainPage_overflow err total entry (Nat.le_of_not_lt hge)).2
    cases hpanic.symm.trans (hpage .panicking)
  constructor
  · exact hexact
  · intro offset limit
    constructor
    · intro hpage
      by_contra hno
      obtain ⟨hge, hlt⟩ := not_or.mp hno
      have hempty := (plainPage_overflow err total entry (Nat.le_of_not_lt hge)).1
      have hslice := congrArg List.length (Except.ok.inj (hempty.symm.trans hpage))
      have hoffset := offset.toNat_lt
      rw [slice, List.length_take, List.length_drop, List.length_nil] at hslice
      omega
    · rintro (hlt | hle)
      · exact h.plainPage_eq hlt _
      · rcases Nat.lt_or_ge (offset.toNat + limit.toNat) (2 ^ 64) with hlt | hge
        · exact h.plainPage_eq hlt _
        · rw [(plainPage_overflow _ _ _ hge).1, slice, List.drop_eq_nil_of_le hle, List.take_nil]
  · intro limit n hlength hfit
    constructor
    · intro hchain
      cases n with
      | zero => simp
      | succ n =>
        obtain ⟨page, hpage⟩ := exists_of_chain (hchain .panicking) n n.lt_succ_self
        by_contra hge
        rw [Nat.succ_mul] at hge
        have hsum : 2 ^ 64 ≤ (UInt64.ofNat (n * limit.toNat)).toNat + limit.toNat := by
          rw [UInt64.toNat_ofNat_of_lt' (hfit n n.lt_succ_self)]
          exact Nat.le_of_not_lt hge
        cases (plainPage_overflow _ _ _ hsum).2.symm.trans hpage
    · intro hlt mode
      rw [chain_eq (fun k hk => h.plainPage_eq ?_ mode) hfit, List.take_of_length_le hlength]
      rw [UInt64.toNat_ofNat_of_lt' (hfit k hk), ← Nat.succ_mul]
      exact (Nat.mul_le_mul_right _ hk).trans_lt hlt

end Pages

end Foundation
