import WaterCredits.Token.Allowance
import WaterCredits.Token.Ledger

/-! # Debits need consent

A balance falls only by a call that its holder authorises, by a spender that
draws on an allowance of the holder, or by a burn. What a holder owns beyond the
allowances that it has granted is therefore out of reach of everybody else.
-/

namespace WaterCredits.Token

open Foundation Function

variable {contract : Address} {W : Type} {e : Env contract} {R : Registry W}
  {s s' : State} {w w' : W} {a b owner spender : Address} {amount n : I128}
  {tr : Trace (State × W) (Env contract × Call)}

def Call.destroys : Call → Option (Address × I128)
  | .burn _ holder amount | .burnWithReason _ holder amount _ => some (holder, amount)
  | _ => none

def Call.allotted (old : Address × Address → I128) : Call → Address × Address → I128
  | .approve owner spender amount _ => update old (owner, spender) amount
  | c => c.allowanceAfter old

theorem step_allowance {c : Call} (h : step R (e, c) (s, w) = .ok (s', w')) :
    s'.allowance = c.allotted s.allowance := by
  cases hc : c.accounting with
  | false =>
    rw [step_administered hc h]
    cases c <;> first | rfl | cases hc
  | true =>
    cases hr : c.retiring with
    | false =>
      rw [step_frame hc hr h]
      cases c <;> first | rfl | cases hc
    | true =>
      rw [step_retiring hr h]
      cases c <;> first | rfl | cases hr

section Grants

def State.grants (s : State) (owner spender : Address) : ℤ := (s.allowance (owner, spender)).val

/-- What the spenders of an owner may draw in all. -/
noncomputable def State.granted (s : State) (owner : Address) : ℤ := ∑ᶠ sp, s.grants owner sp

/-- An owner has finitely many spenders, and owes none of them. -/
structure Allotted (s : State) (owner : Address) : Prop where
  finite : (support (s.grants owner)).Finite
  nonneg : ∀ sp, 0 ≤ s.grants owner sp

theorem grants_congr (h : s'.allowance = s.allowance) : s'.grants owner = s.grants owner := by
  ext sp
  simp only [State.grants, h]

theorem grants_update (h : s'.allowance = update s.allowance (owner, spender) n) :
    s'.grants owner = update (s.grants owner) spender n.val := by
  ext sp
  rcases eq_or_ne sp spender with rfl | hne
  · simp [State.grants, h]
  · simp [State.grants, h, hne]

theorem grants_update_of_ne (h : s'.allowance = update s.allowance (b, spender) n)
    (hb : owner ≠ b) : s'.grants owner = s.grants owner := by
  ext sp
  simp [State.grants, h, hb]

theorem step_grants {c : Call} (h : step R (e, c) (s, w) = .ok (s', w')) (owner : Address) :
    s'.grants owner = s.grants owner ∨
      (∃ spender n x, c = .approve owner spender n x ∧ e.auth owner = true ∧ 0 ≤ n.val ∧
        s'.grants owner = update (s.grants owner) spender n.val) ∨
      ∃ spender recipient n, c = .transferFrom spender owner recipient n ∧ 0 < n.val ∧
        n.val ≤ s.grants owner spender ∧
        s'.grants owner = update (s.grants owner) spender (s.grants owner spender - n.val) := by
  have ha := step_allowance h
  cases c
  case approve from_ spender n x =>
    rcases eq_or_ne owner from_ with rfl | hne
    · simp only [step, within_eq_ok, State.approve, bind_eq_ok, ensure_eq_ok,
        Env.requireAuth_eq_ok] at h
      obtain ⟨⟨_, h0, _, -, _, hauth, -⟩, -⟩ := h
      exact .inr (.inl ⟨spender, n, x, rfl, hauth, h0, grants_update ha⟩)
    · exact .inl (grants_update_of_ne ha hne)
  case transferFrom spender from_ recipient n =>
    rcases eq_or_ne owner from_ with rfl | hne
    · obtain ⟨h0, hle, -⟩ := transferFrom_grant (within_eq_ok.mp h).1
      refine .inr (.inr ⟨spender, recipient, n, rfl, h0, hle, ?_⟩)
      rw [grants_update ha, I128.val_sub_of_le h0.le hle]
      rfl
    · exact .inl (grants_update_of_ne ha hne)
  all_goals exact .inl (grants_congr ha)

theorem Allotted.step {c : Call} (hs : Allotted s owner)
    (h : step R (e, c) (s, w) = .ok (s', w')) : Allotted s' owner := by
  rcases step_grants h owner with heq | ⟨spender, n, -, -, -, h0, heq⟩ |
    ⟨spender, -, n, -, -, hle, heq⟩
  · exact ⟨heq ▸ hs.finite, fun sp => (congrFun heq sp).symm ▸ hs.nonneg sp⟩
  · exact ⟨heq ▸ support_update_finite hs.finite _ _,
      fun sp => (congrFun heq sp).symm ▸ nonneg_update hs.nonneg h0 sp⟩
  · exact ⟨heq ▸ support_update_finite hs.finite _ _,
      fun sp => (congrFun heq sp).symm ▸ nonneg_update hs.nonneg (sub_nonneg.mpr hle) sp⟩

theorem Allotted.granted_nonneg (hs : Allotted s owner) : 0 ≤ s.granted owner :=
  finsum_nonneg hs.nonneg

theorem allotted_reach {sw : State × W} (h : (machine contract R).Reachable sw)
    (owner : Address) : Allotted sw.1 owner := by
  refine Machine.Reach.invariant (I := fun sw => Allotted sw.1 owner) ?_ ?_ h
  · rintro sw ⟨e, admin, name, symbol, projectId, methodology, hs⟩
    rw [(initialise_eq_ok.mp hs).2]
    exact ⟨backed_zero.finite, fun _ => le_rfl⟩
  · rintro tr ⟨s, w⟩ ⟨e, c⟩ ⟨s', w'⟩ hi - hs
    exact hi.step hs

end Grants

section Debits

variable {pairs : List (Address × I128)}

def Call.debit (a : Address) : Call → ℤ
  | .burn _ holder amount | .burnWithReason _ holder amount _ | .retire holder amount _ _ =>
      if holder = a then amount.val else 0
  | .transfer sender _ amount | .transferFrom _ sender _ amount =>
      if sender = a then amount.val else 0
  | .batchTransfer sender _ amounts => if sender = a then (amounts.map I128.val).sum else 0
  | _ => 0

theorem credit_le {credited : I128} (h0 : 0 < n.val)
    (hc : credited.val = (s.balance b).val + n.val) (a : Address) :
    (s.balance a).val ≤ ((s.saveBalance b credited).balance a).val := by
  rcases eq_or_ne a b with rfl | hne
  · simp only [State.saveBalance, update_self]
    omega
  · simp [State.saveBalance, hne]

theorem val_debited (h0 : 0 ≤ n.val) (hle : n.val ≤ (s.balance b).val) (a : Address) :
    ((s.saveBalance b (s.balance b - n)).balance a).val =
      (s.balance a).val - if b = a then n.val else 0 := by
  rcases eq_or_ne b a with rfl | hne
  · simp [State.saveBalance, I128.val_sub_of_le h0 hle]
  · simp [State.saveBalance, hne, hne.symm]

theorem batchMintLoop_le {max total ever ever' : I128}
    (h : State.batchMintLoop max pairs s total ever = .ok (s', ever')) (a : Address) :
    (s.balance a).val ≤ (s'.balance a).val := by
  induction pairs generalizing s total ever with
  | nil =>
    simp only [State.batchMintLoop, pure_eq_ok, Prod.mk.injEq] at h
    obtain ⟨rfl, -⟩ := h
    exact le_rfl
  | cons p rest ih =>
    simp only [State.batchMintLoop, bind_eq_ok, ensure_eq_ok, exists_and_left, exists_const,
      orOverflow_eq_ok, I128.checkedAdd_eq_some] at h
    obtain ⟨h0, next, -, -, balance, hb, ever₁, -, h⟩ := h
    have ht := ih h
    exact (credit_le h0 hb a).trans ht

theorem creditLoop_le (hpos : ∀ p ∈ pairs, 0 < p.2.val)
    (h : State.creditLoop pairs s = .ok s') (a : Address) :
    (s.balance a).val ≤ (s'.balance a).val := by
  induction pairs generalizing s with
  | nil =>
    simp only [State.creditLoop, pure_eq_ok] at h
    subst h
    exact le_rfl
  | cons p rest ih =>
    obtain ⟨hp, hrest⟩ := List.forall_mem_cons.mp hpos
    simp only [State.creditLoop, bind_eq_ok, orOverflow_eq_ok, I128.checkedAdd_eq_some] at h
    obtain ⟨balance, hb, h⟩ := h
    exact (credit_le hp hb a).trans (ih hrest h)

theorem moveBalance_le {sender recipient : Address} (h0 : 0 < n.val)
    (h : s.moveBalance sender recipient n = .ok s') (a : Address) :
    (s.balance a).val - (if sender = a then n.val else 0) ≤ (s'.balance a).val := by
  obtain ⟨hle, credited, hc, rfl⟩ := moveBalance_eq_ok.mp h
  have hd := val_debited (s := s) h0.le hle a
  rcases eq_or_ne a recipient with rfl | hne
  · simp only [State.saveBalance, update_self]
    split <;> omega
  · have hd := hd.ge
    simpa [State.saveBalance, hne] using hd

theorem destroy_balance (h0 : 0 < n.val) (h : s.destroy b n = .ok s') (a : Address) :
    (s'.balance a).val = (s.balance a).val - if b = a then n.val else 0 := by
  obtain ⟨hle, burned, -, rfl⟩ := destroy_eq_ok.mp h
  exact val_debited h0.le hle a

theorem step_destroys {c : Call} (hc : c.destroys = some (b, n))
    (h : step R (e, c) (s, w) = .ok (s', w')) :
    0 < n.val ∧ ∃ t, s.destroy b n = .ok t ∧ s'.balance = t.balance ∧
      s'.totalBurned = t.totalBurned := by
  cases c <;> simp only [Call.destroys, reduceCtorEq, Option.some.injEq, Prod.mk.injEq] at hc
  case burn =>
    obtain ⟨rfl, rfl⟩ := hc
    obtain ⟨h0, t, hd, rfl | ⟨bridged, -, rfl⟩⟩ := burn_cases (within_eq_ok.mp h).1
    · exact ⟨h0, _, hd, rfl, rfl⟩
    · exact ⟨h0, t, hd, rfl, rfl⟩
  case burnWithReason =>
    obtain ⟨rfl, rfl⟩ := hc
    simp only [step, within_eq_ok, State.burnWithReason, bind_eq_ok, ensure_eq_ok] at h
    obtain ⟨⟨_, h0, _, -, hd⟩, -⟩ := h
    exact ⟨h0, s', hd, rfl, rfl⟩

theorem step_debit {c : Call} (h : step R (e, c) (s, w) = .ok (s', w')) (a : Address) :
    (s.balance a).val - c.debit a ≤ (s'.balance a).val := by
  by_cases ha : c.accounting = false
  · rw [step_administered ha h]
    cases c <;> first | exact (sub_zero _).le | cases ha
  cases c <;> simp only [Call.accounting, not_true_eq_false, Bool.true_eq_false] at ha <;>
    simp only [Call.debit, sub_zero]
  case mintTo =>
    obtain ⟨h0, -, -, -, -, balance, hb, total, -, ever, -, rfl⟩ :=
      mintTo_eq_ok.mp (within_eq_ok.mp h).1
    exact credit_le h0 hb a
  case batchMintTo =>
    simp only [step, within_eq_ok, State.batchMintTo, bind_eq_ok, pure_eq_ok] at h
    obtain ⟨⟨_, -, _, -, _, -, _, -, ⟨t, ever⟩, hl, rfl⟩, -⟩ := h
    exact batchMintLoop_le hl a
  case burn | burnWithReason =>
    obtain ⟨h0, t, hd, hb, -⟩ := step_destroys rfl h
    rw [hb]
    exact (destroy_balance h0 hd a).ge
  case transfer =>
    simp only [step, within_eq_ok, State.transfer, bind_eq_ok, ensure_eq_ok] at h
    obtain ⟨⟨_, h0, _, -, _, -, hm⟩, -⟩ := h
    exact moveBalance_le h0 hm a
  case batchTransfer sender recipients amounts =>
    simp only [step, within_eq_ok, State.batchTransfer, bind_eq_ok, ensure_eq_ok] at h
    obtain ⟨⟨_, -, _, -, _, -, _, -, total, ht, _, hle, hl⟩, -⟩ := h
    obtain ⟨hpos, hsum⟩ := batchTotal_eq_ok ht
    rw [I128.val_zero, zero_add] at hsum
    have h0 : 0 ≤ total.val := hsum ▸ List.sum_nonneg fun n hn => by
      obtain ⟨m, hm, rfl⟩ := List.mem_map.mp hn
      exact (hpos m hm).le
    rw [← hsum, ← val_debited h0 hle a]
    exact creditLoop_le (fun p hp => hpos _ (List.of_mem_zip hp).2) hl a
  case transferFrom =>
    simp only [step, within_eq_ok, State.transferFrom, bind_eq_ok, pure_eq_ok, ensure_eq_ok] at h
    obtain ⟨⟨_, h0, _, -, _, -, _, -, _, -, t, hm, rfl⟩, -⟩ := h
    exact moveBalance_le h0 hm a
  case retire =>
    simp only [step, bind_eq_ok, pure_eq_ok, Prod.mk.injEq] at h
    obtain ⟨⟨cert, t, v⟩, h, rfl, rfl⟩ := h
    have h0 := retire_pos h
    rw [retire_eq h]
    simp only [State.retire, bind_eq_ok, ensure_eq_ok] at h
    obtain ⟨_, -, _, -, _, -, _, hle, -⟩ := h
    exact (val_debited h0.le hle a).ge

end Debits

/-- Calls that a holder does not authorise, and that burn none of its credits. -/
def uninvolved (a : Address) : Guard (State × W) (Env contract × Call) := fun _ _ l =>
  l.1.auth a = false ∧ ∀ n, l.2.destroys ≠ some (a, n)

/-- Without the holder and apart from burns only a spender takes credits. -/
theorem debit_eq_zero {c : Call} (hauth : e.auth a = false) (hd : ∀ n, c.destroys ≠ some (a, n))
    (hf : ∀ spender recipient n, c ≠ .transferFrom spender a recipient n)
    (h : step R (e, c) (s, w) = .ok (s', w')) : c.debit a = 0 := by
  have hne {b : Address} (hb : e.auth b = true) : b ≠ a := by
    rintro rfl
    exact absurd hb (by simp [hauth])
  cases c <;> simp only [Call.debit]
  case burn caller holder n =>
    exact if_neg fun heq => hd n (by rw [← heq]; rfl)
  case burnWithReason admin holder n reason =>
    exact if_neg fun heq => hd n (by rw [← heq]; rfl)
  case transfer =>
    simp only [step, within_eq_ok, State.transfer, bind_eq_ok, Env.requireAuth_eq_ok] at h
    obtain ⟨⟨_, -, _, -, _, hs, -⟩, -⟩ := h
    exact if_neg (hne hs)
  case batchTransfer =>
    simp only [step, within_eq_ok, State.batchTransfer, bind_eq_ok, Env.requireAuth_eq_ok] at h
    obtain ⟨⟨_, -, _, -, _, -, _, hs, -⟩, -⟩ := h
    exact if_neg (hne hs)
  case transferFrom spender sender recipient n =>
    refine if_neg ?_
    rintro rfl
    exact hf _ _ _ rfl
  case retire =>
    simp only [step, bind_eq_ok, State.retire, Env.requireAuth_eq_ok] at h
    obtain ⟨_, ⟨_, -, _, -, _, hs, -⟩, -⟩ := h
    exact if_neg (hne hs)

theorem step_unsigned {c : Call} (hs : Allotted s a) (hauth : e.auth a = false)
    (hd : ∀ n, c.destroys ≠ some (a, n)) (h : step R (e, c) (s, w) = .ok (s', w')) :
    (s.balance a).val - s.granted a ≤ (s'.balance a).val - s'.granted a ∧
      s'.granted a ≤ s.granted a := by
  have hdebit := step_debit h a
  by_cases hf : ∃ spender recipient n, c = .transferFrom spender a recipient n
  · obtain ⟨spender, recipient, n, rfl⟩ := hf
    obtain ⟨h0, hle, -⟩ := transferFrom_grant (within_eq_ok.mp h).1
    have hg : s'.granted a = s.granted a - n.val := by
      unfold State.granted
      rw [grants_update (step_allowance h), finsum_update hs.finite, I128.val_sub_of_le h0.le hle]
      unfold State.grants
      omega
    simp only [Call.debit, if_true] at hdebit
    omega
  · push Not at hf
    rw [debit_eq_zero hauth hd hf h, sub_zero] at hdebit
    have hg : s'.granted a = s.granted a := by
      unfold State.granted
      rcases step_grants h a with heq | ⟨_, _, _, -, ha, -⟩ | ⟨_, _, _, hc, -⟩
      · rw [heq]
      · exact absurd ha (by simp [hauth])
      · exact absurd hc (hf _ _ _)
    omega

/-- What a holder has lost without its consent it had granted, and has granted no longer. -/
theorem loss_le_granted {sw₀ sw : State × W} (h0 : (machine contract R).Reachable sw₀)
    (h : ((machine contract R).startedIn sw₀).Reach (uninvolved a) sw) :
    Allotted sw.1 a ∧
      (sw₀.1.balance a).val - sw₀.1.granted a ≤ (sw.1.balance a).val - sw.1.granted a := by
  refine Machine.Reach.invariant (I := fun sw => Allotted sw.1 a ∧
    (sw₀.1.balance a).val - sw₀.1.granted a ≤ (sw.1.balance a).val - sw.1.granted a) ?_ ?_ h
  · rintro sw rfl
    exact ⟨allotted_reach h0 a, le_rfl⟩
  · rintro tr ⟨s, w⟩ ⟨e, c⟩ ⟨s', w'⟩ ⟨hs, hb⟩ ⟨hauth, hd⟩ hstep
    exact ⟨hs.step hstep, hb.trans (step_unsigned hs hauth hd hstep).1⟩

/-- Without the holder no spender gets a new allowance. -/
theorem not_approves {c : Call} (hauth : e.auth a = false)
    (h : step R (e, c) (s, w) = .ok (s', w')) (spender : Address) :
    c.approves (a, spender) = false := by
  cases c <;> try rfl
  case approve owner sp n x =>
    refine decide_eq_false fun heq => ?_
    obtain ⟨rfl, rfl⟩ := Prod.mk.inj heq
    simp only [step, within_eq_ok, State.approve, bind_eq_ok, Env.requireAuth_eq_ok] at h
    obtain ⟨⟨_, -, _, -, _, hsigned, -⟩, -⟩ := h
    exact absurd hsigned (by simp [hauth])

/-- Each spender of such a holder draws what its allowance loses, so no more than the allowance. -/
theorem spentBy_eq {sw₀ sw : State × W} (h0 : (machine contract R).Reachable sw₀)
    (h : ((machine contract R).startedIn sw₀).Run (uninvolved a) tr sw) (spender : Address) :
    spentBy (a, spender) tr = sw₀.1.grants a spender - sw.1.grants a spender ∧
      0 ≤ sw.1.grants a spender ∧ sw.1.grants a spender ≤ sw₀.1.grants a spender := by
  have ha : ∀ st ∈ tr, st.label.2.approves (a, spender) = false := by
    rintro ⟨⟨s₁, w₁⟩, ⟨e, c⟩, ⟨s₂, w₂⟩⟩ hst
    obtain ⟨_, -, ⟨hauth, -⟩, hs⟩ := h.mem _ hst
    exact not_approves hauth hs spender
  have hb := budgeted_run ((allotted_reach h0 a).nonneg spender) rfl (h.restrict ha)
  exact ⟨hb.spent, hb.nonneg, hb.le⟩

/--
A holder that authorises nothing, and whose credits are not burned, loses at
most what its spenders draw, and each of them draws what its allowance loses.
-/
theorem loss_le_spent {sw₀ sw : State × W} (h0 : (machine contract R).Reachable sw₀)
    (h : ((machine contract R).startedIn sw₀).Run (uninvolved a) tr sw) :
    (support fun sp => spentBy (a, sp) tr).Finite ∧
      (sw₀.1.balance a).val - (sw.1.balance a).val ≤ ∑ᶠ sp, spentBy (a, sp) tr ∧
      ∀ sp, spentBy (a, sp) tr =
          (sw₀.1.allowance (a, sp)).val - (sw.1.allowance (a, sp)).val ∧
        0 ≤ (sw.1.allowance (a, sp)).val ∧
        (sw.1.allowance (a, sp)).val ≤ (sw₀.1.allowance (a, sp)).val := by
  have hstart := allotted_reach h0 a
  obtain ⟨hend, hloss⟩ := loss_le_granted h0 ⟨tr, h⟩
  have hspent : (fun sp => spentBy (a, sp) tr) = sw₀.1.grants a - sw.1.grants a :=
    funext fun sp => (spentBy_eq h0 h sp).1
  refine ⟨?_, ?_, spentBy_eq h0 h⟩
  · rw [hspent]
    exact (hstart.finite.union hend.finite).subset (support_sub _ _)
  · have hsum : ∑ᶠ sp, spentBy (a, sp) tr = sw₀.1.granted a - sw.1.granted a := by
      rw [hspent]
      exact finsum_sub_distrib hstart.finite hend.finite
    omega

section Sample

/-- The account `1` lets the account `2` draw fifty of its hundred units. -/
def entrusted : State × Unit :=
  (machine home closedRegistry).calls funded
    [signedBy 1 (.approve (.account 1) (.account 2) 50 0)]

def drawnOn : State × Unit :=
  (machine home closedRegistry).calls entrusted
    [signedBy 2 (.transferFrom (.account 2) (.account 1) (.account 2) 30)]

theorem loss_le_spent_drawnOn : ∃ tr : Trace (State × Unit) (Env home × Call),
    (support fun sp => spentBy (.account 1, sp) tr).Finite ∧
      (entrusted.1.balance (.account 1)).val - (drawnOn.1.balance (.account 1)).val = 30 ∧
      30 ≤ ∑ᶠ sp, spentBy (.account 1, sp) tr ∧ spentBy (.account 1, .account 2) tr = 30 := by
  have h0 : (machine home closedRegistry).Reachable entrusted := funded_reach.free.calls _
  have hstart := Machine.Run.init (m := (machine home closedRegistry).startedIn entrusted)
    (G := uninvolved (.account 1)) rfl
  have hdraw := hstart.call
    (l := signedBy 2 (.transferFrom (.account 2) (.account 1) (.account 2) 30))
    ⟨by decide, fun n hn => absurd hn (by simp [signedBy, Call.destroys])⟩ (by decide)
  obtain ⟨hf, hle, hspent⟩ := loss_le_spent h0 hdraw
  have hloss : (entrusted.1.balance (.account 1)).val - (drawnOn.1.balance (.account 1)).val =
      30 := by decide
  exact ⟨_, hf, hloss, hloss ▸ hle, (hspent (.account 2)).1.trans (by decide)⟩

end Sample

end WaterCredits.Token
