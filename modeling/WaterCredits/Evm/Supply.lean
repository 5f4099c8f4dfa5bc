import WaterCredits.Foundation.FiniteSum
import WaterCredits.Evm.Authority

/-! # The supply of the bridged token

The balances add up to the total supply, which grows by withdrawals and shrinks
by deposits only.
-/

namespace WaterCredits.Evm

open Foundation Function

variable {h : Chain} {contract msgSender : Account} {s s' : State} {c : Call}

def State.book (s : State) (a : Account) : ℤ := (s.balanceOf a).toNat

/-- What a call adds to the supply. -/
def Call.supplied : Call → ℤ
  | .withdraw m _ => m.amount.toNat
  | .deposit amount _ _ => -amount.toNat
  | _ => 0

/-- The balances add up to the supply. -/
def State.Whole (s : State) : Prop := Backed s.book s.totalSupply.toNat

theorem toNat_update (f : Account → Word) (a : Account) (v : Word) :
    (fun b => ((update f a v b).toNat : ℤ)) = update (fun b => ((f b).toNat : ℤ)) a v.toNat := by
  ext b
  by_cases hb : b = a
  · subst hb
    simp
  · simp [hb]

theorem Backed.rewrite {f : Account → Word} {n : ℤ} (hb : Backed (fun a => ((f a).toNat : ℤ)) n)
    {a : Account} {v : Word} {d : ℤ} (hv : (v.toNat : ℤ) = (f a).toNat + d) :
    Backed (fun b => ((update f a v b).toNat : ℤ)) (n + d) := by
  rw [toNat_update, hv]
  exact hb.post a (hv ▸ Int.natCast_nonneg _)

theorem moveBalance_whole {sender recipient : Account} {amount : Word} (hw : s.Whole)
    (hm : s.moveBalance sender recipient amount = .ok s') :
    s'.Whole ∧ s'.totalSupply = s.totalSupply := by
  obtain ⟨debited, credited, hle, hd, hc, rfl⟩ := moveBalance_cases hm
  have h1 := Backed.rewrite hw (a := sender) (v := debited) (d := -amount.toNat) (by omega)
  have h2 := Backed.rewrite h1 (a := recipient) (v := credited) (d := amount.toNat) (by omega)
  rw [neg_add_cancel_right] at h2
  exact ⟨h2, rfl⟩

theorem execute_whole (hw : s.Whole) (hs : execute h contract msgSender s c = .ok s') :
    s'.Whole ∧ (s'.totalSupply.toNat : ℤ) = s.totalSupply.toNat + c.supplied := by
  have moved {t : State} {sender recipient : Account} {amount : Word}
      (hm : t.moveBalance sender recipient amount = .ok s') (ht : t.Whole)
      (hst : t.totalSupply = s.totalSupply) :
      s'.Whole ∧ (s'.totalSupply.toNat : ℤ) = s.totalSupply.toNat + 0 := by
    obtain ⟨hw', heq⟩ := moveBalance_whole ht hm
    exact ⟨hw', by rw [heq, hst, add_zero]⟩
  cases c with
  | withdraw m sigs =>
    obtain ⟨-, -, -, -, -, -, credited, total, hc, ht, rfl⟩ := withdraw_cases hs
    have ht : (total.toNat : ℤ) = s.totalSupply.toNat + m.amount.toNat := by omega
    refine ⟨?_, ht⟩
    have hb := Backed.rewrite hw (a := m.recipient) (v := credited) (d := m.amount.toNat) (by omega)
    rwa [← ht] at hb
  | deposit amount recipientType recipient =>
    simp only [execute, bind_eq_ok, pure_eq_ok] at hs
    obtain ⟨⟨ev, t⟩, hd, rfl⟩ := hs
    obtain ⟨-, -, -, debited, total, next, hle, hb, hle', hn, -, rfl⟩ := deposit_cases hd
    have ht : (total.toNat : ℤ) = s.totalSupply.toNat + -amount.toNat := by omega
    refine ⟨?_, ht⟩
    have hb := Backed.rewrite hw (a := msgSender) (v := debited) (d := -amount.toNat) (by omega)
    rwa [← ht] at hb
  | transfer recipient amount =>
    simp only [execute, State.transfer, bind_eq_ok] at hs
    obtain ⟨_, -, _, -, _, -, hm⟩ := hs
    exact moved hm hw rfl
  | transferFrom holder recipient amount =>
    simp only [execute, State.transferFrom, bind_eq_ok] at hs
    obtain ⟨_, -, _, -, _, -, _, -, left, -, hm⟩ := hs
    exact moved hm hw rfl
  | approve | pause | unpause =>
    simp only [execute, State.approve, State.pause, State.unpause, bind_eq_ok, pure_eq_ok] at hs
    obtain ⟨_, -, rfl⟩ := hs
    exact ⟨hw, by simp [Call.supplied]⟩

theorem addRelayers_empty {rs : List Account} (ha : addRelayers rs s = .ok s') :
    s'.balanceOf = s.balanceOf ∧ s'.totalSupply = s.totalSupply := by
  induction rs generalizing s with
  | nil =>
    simp only [addRelayers, pure_eq_ok] at ha
    rw [ha]
    exact ⟨rfl, rfl⟩
  | cons r rs ih =>
    simp only [addRelayers, bind_eq_ok] at ha
    obtain ⟨_, -, _, -, ha⟩ := ha
    have ht := ih ha
    exact ht

theorem init_whole (hi : (machine h contract).init s) : s.Whole ∧ s.totalSupply = 0 := by
  obtain ⟨name, symbol, admin, governance, relayers, threshold, hd⟩ := hi
  simp only [deploy, bind_eq_ok] at hd
  obtain ⟨_, -, ha⟩ := hd
  obtain ⟨hb, ht⟩ := addRelayers_empty ha
  refine ⟨?_, ht⟩
  unfold State.Whole State.book
  rw [hb, ht]
  exact backed_zero

end WaterCredits.Evm
