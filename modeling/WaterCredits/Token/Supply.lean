import WaterCredits.Token.Balances

/-! # Conservation of the supply

Circulating, retired and burned credits account for every credit ever minted,
and no plain addition or subtraction of a call leaves the range of its type.
Both rest on the fact that a holder owns at most the supply.
-/

namespace WaterCredits.Token

open Foundation Function

variable {contract : Address} {W : Type} {e : Env contract} {R : Registry W}
  {s s' : State} {w w' : W}

/-- The exact results of the plain additions and subtractions that a call makes after its checks. -/
def State.plainResults (s : State) : Call → List ℤ
  | .mintTo minter _ amount =>
      if s.bridge = some minter ∧ 0 < amount ∧ amount ≤ s.bridgedToEvm then
        [s.bridgedToEvm.val - amount.val]
      else []
  | .burn _ holder amount | .burnWithReason _ holder amount _ =>
      if 0 < amount ∧ amount ≤ s.balance holder then
        [(s.balance holder).val - amount.val, s.totalSupply.val - amount.val]
      else []
  | .retire holder amount _ _ =>
      if 0 < amount ∧ amount ≤ s.balance holder then
        [(s.balance holder).val - amount.val, s.totalSupply.val - amount.val,
          s.totalRetired.val + amount.val]
      else []
  | _ => []

theorem plainResults_fit (hb : s.books.Balanced) (c : Call) :
    ∀ n ∈ s.plainResults c, I128.Fits n := by
  have debit {holder : Address} {amount : I128} (h : 0 < amount ∧ amount ≤ s.balance holder) :
      I128.Fits ((s.balance holder).val - amount.val) ∧
        I128.Fits (s.totalSupply.val - amount.val) := by
    obtain ⟨h0, hle⟩ := h
    rw [I128.lt_iff, I128.val_zero] at h0
    exact ⟨I128.fits_sub h0.le hle, I128.fits_sub h0.le (hle.trans (hb.le holder))⟩
  cases c <;> simp only [State.plainResults, List.not_mem_nil, false_implies, implies_true] <;>
    split <;> simp only [List.mem_cons, List.not_mem_nil, or_false, false_implies, implies_true]
  case mintTo.isTrue h =>
    rintro n rfl
    exact I128.fits_sub (le_of_lt h.2.1) h.2.2
  case burn.isTrue h =>
    rintro n (rfl | rfl)
    exacts [(debit h).1, (debit h).2]
  case burnWithReason.isTrue h =>
    rintro n (rfl | rfl)
    exacts [(debit h).1, (debit h).2]
  case retire.isTrue holder amount _ _ h =>
    rintro n (rfl | rfl | rfl)
    · exact (debit h).1
    · exact (debit h).2
    · exact fits_retired hb h.1 h.2

theorem step_toSelf_minted {c : Call} (hc : c.toSelf)
    (h : step R (e, c) (s, w) = .ok (s', w')) : s'.everMinted = s.everMinted := by
  have keep {t : State} {a b : Address} {n : I128} (h : s.moveBalance a b n = .ok t) :
      t.everMinted = s.everMinted := by
    obtain ⟨-, credited, -, rfl⟩ := moveBalance_eq_ok.mp h
    rfl
  cases c <;> simp only [Call.toSelf] at hc
  case transfer =>
    simp only [step, within_eq_ok, State.transfer, bind_eq_ok] at h
    obtain ⟨⟨_, -, _, -, _, -, h⟩, -⟩ := h
    exact keep h
  case transferFrom =>
    simp only [step, within_eq_ok, State.transferFrom, bind_eq_ok, pure_eq_ok] at h
    obtain ⟨⟨_, -, _, -, _, -, _, -, _, -, t, h, rfl⟩, -⟩ := h
    have ht := keep h
    exact ht

theorem step_minted_le {c : Call} (hb : s.books.Balanced)
    (h : step R (e, c) (s, w) = .ok (s', w')) : s.everMinted.val ≤ s'.everMinted.val := by
  by_cases hc : c.toSelf
  · exact (congrArg I128.val (step_toSelf_minted hc h)).ge
  · exact (step_entries hb hc h).minted_le

/--
The four counters are non-negative and conserved, plain arithmetic is exact
and the mint counter only grows, in every run without transfers to oneself.
-/
theorem supply_conserved {sw : State × W} (h : (machine contract R).Reach noSelfTransfer sw) :
    sw.1.totalSupply.val + sw.1.totalRetired.val + sw.1.totalBurned.val = sw.1.everMinted.val ∧
      0 ≤ sw.1.totalSupply.val ∧ 0 ≤ sw.1.totalRetired.val ∧ 0 ≤ sw.1.totalBurned.val ∧
      0 ≤ sw.1.everMinted.val ∧
      (∀ c, ∀ n ∈ sw.1.plainResults c, I128.Fits n) ∧
      ∀ (l : Env contract × Call) (sw' : State × W), (machine contract R).step l sw = .ok sw' →
        sw.1.everMinted.val ≤ sw'.1.everMinted.val := by
  have hb := balanced_reach h
  exact ⟨hb.conserved, hb.total_nonneg, hb.retired_nonneg, hb.burned_nonneg, hb.minted_nonneg,
    plainResults_fit hb, fun l sw' hs => step_minted_le hb hs⟩

section Sample

/-- Of one hundred units, thirty burned and twenty retired. -/
def spent : State × Unit :=
  (machine home closedRegistry).calls funded
    [signedBy 0 (.burn (.account 0) (.account 1) 30),
      signedBy 1 (.retire (.account 1) 20 "offset" "")]

theorem supply_conserved_spent :
    spent.1.totalSupply.val = 50 ∧ spent.1.everMinted.val = 100 ∧
      spent.1.totalSupply.val + spent.1.totalRetired.val + spent.1.totalBurned.val =
        spent.1.everMinted.val :=
  ⟨by decide, by decide, (supply_conserved
    (funded_reach.calls (by simp [signedBy, noSelfTransfer, Call.toSelf]))).1⟩

def overdrawn : State × Unit :=
  (machine home closedRegistry).calls inflated
    [signedBy 0 (.burn (.account 0) (.account 1) 200)]

theorem self_transfer_overdraws :
    (machine home closedRegistry).Reachable overdrawn ∧ overdrawn.1.totalSupply.val = -100 :=
  ⟨(funded_reach.free.calls _).calls _, by decide⟩

end Sample

end WaterCredits.Token
