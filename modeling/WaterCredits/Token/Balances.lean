import WaterCredits.Token.Accounting

/-! # Balances and the total supply

Without transfers of a holder to itself the balances of every reachable token
add up to its supply. Such a transfer credits the balance that was read before
the debit, so it creates its amount out of nothing.
-/

namespace WaterCredits.Token

open Foundation Function

variable {contract : Address} {W : Type} {e : Env contract} {R : Registry W}
  {s s' : State} {w w' : W}

/-- The calls that only move balances between holders. -/
def Call.transferLike : Call → Bool
  | .transfer .. | .batchTransfer .. | .transferFrom .. => true
  | _ => false

theorem moveBalance_frame {sender recipient : Address} {amount : I128}
    (h : s.moveBalance sender recipient amount = .ok s') :
    s' = { s with balance := s'.balance } := by
  obtain ⟨-, credited, -, rfl⟩ := moveBalance_eq_ok.mp h
  rfl

/--
A holder gives an amount to another and no other balance changes. What it gives
to itself is credited and not debited.
-/
def Conveyed (s s' : State) (sender recipient : Address) (amount : I128) : Prop :=
  ∀ a, (s'.balance a).val =
    if a = recipient then (s.balance a).val + amount.val
    else if a = sender then (s.balance a).val - amount.val
    else (s.balance a).val

theorem moveBalance_conveyed {sender recipient : Address} {amount : I128} (h0 : 0 < amount.val)
    (h : s.moveBalance sender recipient amount = .ok s') :
    Conveyed s s' sender recipient amount := by
  obtain ⟨hle, credited, hc, rfl⟩ := moveBalance_eq_ok.mp h
  intro a
  split_ifs with hr hs
  · subst hr
    simp only [State.saveBalance, update_self, hc]
  · subst hs
    simp only [State.saveBalance, update_of_ne hr, update_self, I128.val_sub_of_le h0.le hle]
  · simp only [State.saveBalance, update_of_ne hr, update_of_ne hs]

theorem creditLoop_frame {pairs : List (Address × I128)}
    (h : State.creditLoop pairs s = .ok s') :
    s' = { s with balance := s'.balance } := by
  induction pairs generalizing s with
  | nil =>
    simp only [State.creditLoop, pure_eq_ok] at h
    subst h
    rfl
  | cons p rest ih =>
    simp only [State.creditLoop, bind_eq_ok] at h
    obtain ⟨balance, -, h⟩ := h
    have ht := ih h
    exact ht

theorem batchTransfer_frame {sender : Address} {recipients : List Address} {amounts : List I128}
    (h : s.batchTransfer e sender recipients amounts = .ok s') :
    s' = { s with balance := s'.balance } := by
  simp only [State.batchTransfer, bind_eq_ok] at h
  obtain ⟨_, -, _, -, _, -, _, -, total, -, _, -, h⟩ := h
  have ht := creditLoop_frame h
  exact ht

/-- The allowances that an accounting call leaves behind. -/
def Call.allowanceAfter (old : Address × Address → I128) : Call → Address × Address → I128
  | .transferFrom spender sender _ amount =>
      update old (sender, spender) (old (sender, spender) - amount)
  | _ => old

theorem step_transfers {c : Call} (hc : c.transferLike = true)
    (h : step R (e, c) (s, w) = .ok (s', w')) :
    s' = { s with balance := s'.balance, allowance := c.allowanceAfter s.allowance } := by
  cases c <;> simp only [Call.transferLike, Bool.false_eq_true] at hc <;>
    simp only [step, within_eq_ok] at h
  case transfer =>
    simp only [State.transfer, bind_eq_ok] at h
    obtain ⟨⟨_, -, _, -, _, -, h⟩, -⟩ := h
    rw [moveBalance_frame h]
    rfl
  case batchTransfer =>
    rw [batchTransfer_frame h.1]
    rfl
  case transferFrom =>
    simp only [State.transferFrom, bind_eq_ok, pure_eq_ok] at h
    obtain ⟨⟨_, -, _, -, _, -, _, -, _, -, t, h, rfl⟩, -⟩ := h
    rw [moveBalance_frame h]
    rfl

/-- Transfers never change the supply. -/
theorem step_supply_eq {c : Call} (hc : c.transferLike = true)
    (h : step R (e, c) (s, w) = .ok (s', w')) : s'.totalSupply = s.totalSupply := by
  rw [step_transfers hc h]

theorem moveBalance_self {holder : Address} {amount : I128} (hb : s.books.Funded)
    (h : s.moveBalance holder holder amount = .ok s') :
    ∑ᶠ a, (s'.balance a).val = ∑ᶠ a, (s.balance a).val + amount.val := by
  obtain ⟨-, credited, h1, rfl⟩ := moveBalance_eq_ok.mp h
  have hf : (support fun a => (s.balance a).val).Finite := hb.finite
  simp only [State.saveBalance, update_idem, val_update, finsum_update hf, h1]
  omega

theorem step_toSelf_lt {sw sw' : State × W} {c : Call} (hb : sw.1.books.Funded) (hc : c.toSelf)
    (h : (machine contract R).step (e, c) sw = .ok sw') :
    ∑ᶠ a, (sw.1.balance a).val < ∑ᶠ a, (sw'.1.balance a).val := by
  obtain ⟨s, w⟩ := sw
  obtain ⟨s', w'⟩ := sw'
  simp only [machine] at h
  cases c <;> simp only [Call.toSelf] at hc <;> subst hc
  case transfer =>
    simp only [step, within_eq_ok, State.transfer, bind_eq_ok, ensure_eq_ok] at h
    obtain ⟨⟨_, h0, _, -, _, -, h⟩, -⟩ := h
    exact moveBalance_self hb h ▸ lt_add_of_pos_right _ h0
  case transferFrom =>
    simp only [step, within_eq_ok, State.transferFrom, bind_eq_ok, pure_eq_ok, ensure_eq_ok] at h
    obtain ⟨⟨_, h0, _, -, _, -, _, -, _, -, t, h, rfl⟩, -⟩ := h
    have ht := moveBalance_self hb h
    exact ht ▸ lt_add_of_pos_right _ h0

/--
Balances are non-negative and add up to the supply in every run without
transfers to oneself, and no transfer changes their sum.
-/
theorem balances_sum_to_supply {sw : State × W}
    (h : (machine contract R).Reach noSelfTransfer sw) :
    (support fun a => (sw.1.balance a).val).Finite ∧
      ∑ᶠ a, (sw.1.balance a).val = sw.1.totalSupply.val ∧
      (∀ a, 0 ≤ (sw.1.balance a).val) ∧
      ∀ (e : Env contract) (c : Call) (sw' : State × W), c.transferLike = true → ¬ c.toSelf →
        step R (e, c) sw = .ok sw' →
          ∑ᶠ a, (sw'.1.balance a).val = ∑ᶠ a, (sw.1.balance a).val := by
  have hb := balanced_reach h
  refine ⟨hb.finite, hb.total, hb.nonneg, ?_⟩
  rintro e c ⟨s', w'⟩ hc hne hs
  have ht := (hb.entries (step_entries hb hne hs)).total
  have hu := step_supply_eq hc hs
  simp only [State.books, hu] at ht
  exact ht.trans hb.total.symm

section Sample

def closedRegistry : Registry Unit := ⟨fun _ _ _ _ _ _ _ _ => .error .invokeFailed⟩

/-- The address that the samples deploy the token at. -/
abbrev home : Address := .contract 1

def signedBy (key : BytesN 32) (c : Call) : Env home × Call :=
  (.signed 0 0 (.account key) (by simp), c)

def deployed : State × Unit :=
  ({ admin := .account 0
     name := "Water Credit"
     symbol := "WCR"
     metadata := { projectId := 7, methodology := "VCS", vintage := 0, issuanceDate := 0 } }, ())

theorem deployed_init : (machine home closedRegistry).init deployed :=
  ⟨(signedBy 0 (.acceptAdmin home)).1, .account 0, "Water Credit", "WCR", 7, "VCS", rfl⟩

theorem deployed_reach {G : Guard (State × Unit) (Env home × Call)} :
    (machine home closedRegistry).Reach G deployed := ⟨_, .init deployed_init⟩

def funded : State × Unit :=
  (machine home closedRegistry).calls deployed [signedBy 0 (.mintTo (.account 0) (.account 1) 100)]

theorem funded_reach : (machine home closedRegistry).Reach noSelfTransfer funded :=
  deployed_reach.calls (by simp [signedBy, noSelfTransfer, Call.toSelf])

theorem balances_sum_to_supply_funded :
    (funded.1.balance (.account 1)).val = 100 ∧
      ∑ᶠ a, (funded.1.balance a).val = funded.1.totalSupply.val :=
  ⟨by decide, (balances_sum_to_supply funded_reach).2.1⟩

/-- The account `1` has sent its hundred units to itself. -/
def inflated : State × Unit :=
  (machine home closedRegistry).calls funded
    [signedBy 1 (.transfer (.account 1) (.account 1) 100)]

theorem self_transfer_inflates :
    (machine home closedRegistry).Reachable inflated ∧ inflated.1.totalSupply.val = 100 ∧
      100 < ∑ᶠ a, (inflated.1.balance a).val := by
  refine ⟨funded_reach.free.calls _, by decide, ?_⟩
  have hb := (balanced_reach funded_reach).toBacked
  have hs : ∑ᶠ a, (funded.1.balance a).val = 100 := hb.total.trans (by decide)
  rcases Machine.call_cases (m := machine home closedRegistry) funded
    (signedBy 1 (.transfer (.account 1) (.account 1) 100)) with h | h
  · have hne : (inflated.1.balance (.account 1)).val ≠ (funded.1.balance (.account 1)).val := by
      decide
    exact absurd (congrArg (fun sw => (sw.1.balance (.account 1)).val) h) hne
  · have hc : (Call.transfer (.account 1) (.account 1) 100).toSelf := rfl
    have hlt := step_toSelf_lt hb hc h
    rwa [hs] at hlt

end Sample

end WaterCredits.Token
