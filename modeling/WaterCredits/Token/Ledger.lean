import WaterCredits.Token.Cap

/-! # Ledgers of credit tokens

Holdings are finitely many and never negative, in every run and with transfers
to oneself too. A ledger is the storage of a token that some run has reached.
-/

namespace WaterCredits.Token

open Foundation Function

variable {contract : Address} {W : Type} {e : Env contract} {R : Registry W}
  {s s' : State} {w w' : W}

/-- Finitely many holders, none with a negative balance. -/
structure Holdings (balance : Address → I128) : Prop where
  finite : (support fun a => (balance a).val).Finite
  nonneg : ∀ a, 0 ≤ (balance a).val

theorem Holdings.update {balance : Address → I128} (h : Holdings balance) (a : Address) {v : I128}
    (hv : 0 ≤ v.val) : Holdings (update balance a v) := by
  have hval := val_update balance a v
  constructor
  · rw [hval]
    exact support_update_finite h.finite a _
  · intro b
    have hb := nonneg_update (f := fun a => (balance a).val) h.nonneg (a := a) hv b
    rwa [← hval] at hb

theorem Holdings.debit (h : Holdings s.balance) {a : Address} {n : I128} (h0 : 0 < n.val)
    (hle : n.val ≤ (s.balance a).val) : Holdings (s.saveBalance a (s.balance a - n)).balance :=
  h.update a (by rw [I128.val_sub_of_le h0.le hle]; omega)

theorem Holdings.credit (h : Holdings s.balance) {a : Address} {n credited : I128} (h0 : 0 < n.val)
    (hc : credited.val = (s.balance a).val + n.val) : Holdings (s.saveBalance a credited).balance :=
  h.update a (by have := h.nonneg a; omega)

theorem batchMintLoop_holdings {max total ever ever' : I128} {pairs : List (Address × I128)}
    (h : State.batchMintLoop max pairs s total ever = .ok (s', ever')) (hs : Holdings s.balance) :
    Holdings s'.balance := by
  induction pairs generalizing s total ever with
  | nil =>
    simp only [State.batchMintLoop, pure_eq_ok, Prod.mk.injEq] at h
    exact h.1 ▸ hs
  | cons p rest ih =>
    simp only [State.batchMintLoop, bind_eq_ok, ensure_eq_ok, exists_and_left, exists_const,
      orOverflow_eq_ok, I128.checkedAdd_eq_some] at h
    obtain ⟨h0, next, -, -, balance, hb, ever₁, -, h⟩ := h
    exact ih h (hs.credit h0 hb)

theorem creditLoop_holdings {pairs : List (Address × I128)} (hpos : ∀ p ∈ pairs, 0 < p.2.val)
    (h : State.creditLoop pairs s = .ok s') (hs : Holdings s.balance) : Holdings s'.balance := by
  induction pairs generalizing s with
  | nil =>
    simp only [State.creditLoop, pure_eq_ok] at h
    exact h ▸ hs
  | cons p rest ih =>
    obtain ⟨hp, hrest⟩ := List.forall_mem_cons.mp hpos
    simp only [State.creditLoop, bind_eq_ok, orOverflow_eq_ok, I128.checkedAdd_eq_some] at h
    obtain ⟨balance, hb, h⟩ := h
    exact ih hrest h (hs.credit hp hb)

theorem moveBalance_holdings {sender recipient : Address} {amount : I128} (h0 : 0 < amount.val)
    (h : s.moveBalance sender recipient amount = .ok s') (hs : Holdings s.balance) :
    Holdings s'.balance := by
  obtain ⟨hle, credited, hc, rfl⟩ := moveBalance_eq_ok.mp h
  have hr := hs.nonneg recipient
  exact (hs.debit h0 hle).update recipient (by omega)

theorem destroy_holdings {holder : Address} {amount : I128} (h0 : 0 < amount.val)
    (h : s.destroy holder amount = .ok s') (hs : Holdings s.balance) : Holdings s'.balance := by
  obtain ⟨hle, burned, -, rfl⟩ := destroy_eq_ok.mp h
  exact hs.debit h0 hle

theorem step_holdings {c : Call} (h : step R (e, c) (s, w) = .ok (s', w'))
    (hs : Holdings s.balance) :
    Holdings s'.balance := by
  by_cases ha : c.accounting = false
  · have hb : (fun a => (s'.balance a).val) = fun a => (s.balance a).val :=
      congrArg Books.balance (step_administer ha h).1
    exact ⟨hb ▸ hs.finite, fun a => (congrFun hb a).symm ▸ hs.nonneg a⟩
  cases c <;> simp only [Call.accounting, not_true_eq_false, Bool.true_eq_false] at ha <;>
    simp only [step, within_eq_ok] at h
  case mintTo =>
    obtain ⟨h0, -, -, -, -, balance, hb, total, -, ever, -, rfl⟩ := mintTo_eq_ok.mp h.1
    exact hs.credit h0 hb
  case batchMintTo =>
    simp only [State.batchMintTo, bind_eq_ok, pure_eq_ok] at h
    obtain ⟨⟨_, -, _, -, _, -, _, -, ⟨t, ever⟩, hl, rfl⟩, -⟩ := h
    have ht := batchMintLoop_holdings hl hs
    exact ht
  case burn =>
    obtain ⟨h0, t, hd, rfl | ⟨bridged, -, rfl⟩⟩ := burn_cases h.1
    · exact destroy_holdings h0 hd hs
    · have ht := destroy_holdings h0 hd hs
      exact ht
  case burnWithReason =>
    simp only [State.burnWithReason, bind_eq_ok, ensure_eq_ok] at h
    obtain ⟨⟨_, h0, _, -, hd⟩, -⟩ := h
    exact destroy_holdings h0 hd hs
  case transfer =>
    simp only [State.transfer, bind_eq_ok, ensure_eq_ok] at h
    obtain ⟨⟨_, h0, _, -, _, -, hm⟩, -⟩ := h
    exact moveBalance_holdings h0 hm hs
  case batchTransfer sender recipients amounts =>
    simp only [State.batchTransfer, bind_eq_ok, ensure_eq_ok] at h
    obtain ⟨⟨_, -, _, -, _, -, _, -, total, ht, _, hle, hl⟩, -⟩ := h
    obtain ⟨hpos, hsum⟩ := batchTotal_eq_ok ht
    have h0 : 0 ≤ (amounts.map I128.val).sum := List.sum_nonneg fun n hn => by
      obtain ⟨m, hm, rfl⟩ := List.mem_map.mp hn
      exact (hpos m hm).le
    rw [I128.val_zero, zero_add] at hsum
    have hd := I128.val_sub_of_le (hsum ▸ h0) hle
    refine creditLoop_holdings (fun p hp => hpos _ (List.of_mem_zip hp).2) hl (hs.update sender ?_)
    rw [hd]
    exact sub_nonneg.mpr hle
  case transferFrom =>
    simp only [State.transferFrom, bind_eq_ok, pure_eq_ok, ensure_eq_ok] at h
    obtain ⟨⟨_, h0, _, -, _, -, _, -, _, -, t, hm, rfl⟩, -⟩ := h
    have ht := moveBalance_holdings h0 hm hs
    exact ht
  case retire holder amount purpose metadataUri =>
    simp only [bind_eq_ok, pure_eq_ok, Prod.mk.injEq] at h
    obtain ⟨⟨cert, t, v⟩, h, rfl, rfl⟩ := h
    have h0 := retire_pos h
    have hle : amount.val ≤ (s.balance holder).val := by
      simp only [State.retire, bind_eq_ok, ensure_eq_ok] at h
      obtain ⟨_, -, _, -, _, -, _, hle, -⟩ := h
      exact hle
    rw [retire_eq h]
    exact hs.debit h0 hle

theorem holdings_reach {sw : State × W} (h : (machine contract R).Reachable sw) :
    Holdings sw.1.balance := by
  refine Machine.Reach.invariant (I := fun sw => Holdings sw.1.balance) ?_ ?_ h
  · intro sw h
    have hb : (fun a => (sw.1.balance a).val) = fun _ => 0 := congrArg Books.balance (init_books h)
    exact ⟨hb ▸ backed_zero.finite, fun a => (congrFun hb a).ge⟩
  · rintro tr ⟨s, w⟩ ⟨e, c⟩ ⟨s', w'⟩ hs - h
    exact step_holdings h hs

/-- The storage of a credit token that some run has reached, with any retirement registry. -/
structure Ledger where
  state : State
  reached : ∃ (contract : Address) (V : Type) (R : Registry V) (v : V),
    (machine contract R).Reachable (state, v)

namespace Ledger

variable (l : Ledger)

def balance (a : Address) : I128 := l.state.balance a

def totalSupply : I128 := l.state.totalSupply

theorem holdings : Holdings l.balance := by
  obtain ⟨contract, V, R, v, h⟩ := l.reached
  exact holdings_reach h

/-- The balances fit into the supply. Transfers to oneself are the only way to lose this. -/
def Covered : Prop := ∑ᶠ a, (l.balance a).val ≤ l.totalSupply.val

variable {l}

theorem covered_of_noSelfTransfer
    (h : (machine contract R).Reach noSelfTransfer (l.state, w)) : l.Covered :=
  (balanced_reach h).total.le

end Ledger

end WaterCredits.Token
