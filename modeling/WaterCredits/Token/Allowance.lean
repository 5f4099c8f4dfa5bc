import WaterCredits.Token.Cap

/-! # Budgets of spenders

The allowance of an owner and a spender is what is left of their last approval.
The ledger at which it expires is kept in an entry of its own.
-/

namespace WaterCredits.Token

open Foundation Function

variable {contract : Address} {W : Type} {e : Env contract} {R : Registry W}
  {s s' : State} {w w' : W} {pair : Address × Address} {amount : I128} {expirationLedger : UInt32}
  {tr : Trace (State × W) (Env contract × Call)}

namespace Call

def approves (pair : Address × Address) : Call → Bool
  | .approve owner spender _ _ => decide ((owner, spender) = pair)
  | _ => false

/-- The amount that a call draws on the allowance of an owner and a spender. -/
def drawn (pair : Address × Address) : Call → Option I128
  | .transferFrom spender sender _ amount => if (sender, spender) = pair then some amount else none
  | _ => none

theorem drawn_eq_some {c : Call} :
    c.drawn pair = some amount ↔ ∃ recipient, c = .transferFrom pair.2 pair.1 recipient amount := by
  obtain ⟨owner, spender⟩ := pair
  constructor
  · intro h
    cases c <;> simp only [drawn, reduceCtorEq, Option.ite_none_right_eq_some] at h
    obtain ⟨heq, hn⟩ := h
    cases heq
    cases hn
    exact ⟨_, rfl⟩
  · rintro ⟨recipient, rfl⟩
    exact if_pos rfl

end Call

/-- The allowance of an owner and a spender, and the ledger at which it expires. -/
def State.grant (s : State) (pair : Address × Address) : I128 × UInt32 :=
  (s.allowance pair, s.allowanceExpiration pair)

/-- Approvals and transfers of other pairs leave an allowance alone, and so do all other calls. -/
theorem step_grant_eq {c : Call} (ha : c.approves pair = false) (hd : c.drawn pair = none)
    (h : step R (e, c) (s, w) = .ok (s', w')) : s'.grant pair = s.grant pair := by
  cases hc : c.accounting with
  | false =>
    rw [step_administered hc h]
    cases c
    case approve owner spender _ _ =>
      have hne : pair ≠ (owner, spender) := fun heq => of_decide_eq_false ha heq.symm
      simp only [State.grant, State.administered, update_of_ne hne]
    all_goals rfl
  | true =>
    cases hr : c.retiring with
    | false =>
      rw [step_frame hc hr h]
      cases c
      case transferFrom spender sender _ _ =>
        have hne : pair ≠ (sender, spender) := fun heq => by simp [Call.drawn, heq] at hd
        simp only [State.grant, Call.allowanceAfter, update_of_ne hne]
      all_goals rfl
    | true =>
      rw [step_retiring hr h]
      rfl

theorem approve_grant {owner spender : Address}
    (h : s.approve e owner spender amount expirationLedger = .ok s') :
    0 ≤ amount.val ∧ s'.grant (owner, spender) = (amount, expirationLedger) := by
  simp only [State.approve, bind_eq_ok, ensure_eq_ok, pure_eq_ok] at h
  obtain ⟨_, h0, _, -, _, -, rfl⟩ := h
  refine ⟨h0, ?_⟩
  simp only [State.grant, update_self]

theorem transferFrom_conveyed {spender sender recipient : Address}
    (h : s.transferFrom e spender sender recipient amount = .ok s') :
    Conveyed s s' sender recipient amount := by
  simp only [State.transferFrom, bind_eq_ok, ensure_eq_ok, pure_eq_ok] at h
  obtain ⟨_, h0, _, -, _, -, _, -, _, -, t, hm, rfl⟩ := h
  have ht := moveBalance_conveyed h0 hm
  exact ht

theorem transferFrom_grant {spender sender recipient : Address}
    (h : s.transferFrom e spender sender recipient amount = .ok s') :
    0 < amount.val ∧ amount.val ≤ (s.allowance (sender, spender)).val ∧
      (0 < s.allowanceExpiration (sender, spender) →
        e.sequence < s.allowanceExpiration (sender, spender)) ∧
      s'.grant (sender, spender) =
        (s.allowance (sender, spender) - amount, s.allowanceExpiration (sender, spender)) := by
  simp only [State.transferFrom, bind_eq_ok, ensure_eq_ok, pure_eq_ok] at h
  obtain ⟨_, h0, _, -, _, -, _, hle, _, hexp, t, hm, rfl⟩ := h
  refine ⟨h0, hle, fun hpos => ?_, ?_⟩
  · exact UInt32.not_le.mp fun hge => hexp ⟨hpos, hge⟩
  · rw [moveBalance_frame hm]
    simp only [State.grant, update_self]

/-- The amounts that the calls of a run draw on an allowance. -/
def spentBy (pair : Address × Address) (tr : Trace (State × W) (Env contract × Call)) : ℤ :=
  ((tr.filterMap fun st => st.label.2.drawn pair).map I128.val).sum

@[simp] theorem spentBy_cons (st : Step (State × W) (Env contract × Call)) :
    spentBy pair (st :: tr) = (st.label.2.drawn pair).elim 0 I128.val + spentBy pair tr := by
  unfold spentBy
  rw [List.filterMap_cons]
  cases st.label.2.drawn pair with
  | none => simp
  | some n => simp

/-- The calls `tr` have kept to the budget of an approval, and `s` holds what is left of it. -/
structure Budgeted (pair : Address × Address) (amount : I128) (expirationLedger : UInt32)
    (tr : Trace (State × W) (Env contract × Call)) (s : State) : Prop where
  spent : spentBy pair tr = amount.val - (s.allowance pair).val
  nonneg : 0 ≤ (s.allowance pair).val
  le : (s.allowance pair).val ≤ amount.val
  timely : 0 < expirationLedger → ∀ st ∈ tr, (st.label.2.drawn pair).isSome = true →
    st.label.1.sequence < expirationLedger
  expiration : s.allowanceExpiration pair = expirationLedger

theorem Budgeted.start (h0 : 0 ≤ amount.val) (h : s.grant pair = (amount, expirationLedger)) :
    Budgeted pair amount expirationLedger ([] : Trace (State × W) (Env contract × Call)) s := by
  obtain ⟨ha, hx⟩ := Prod.mk.inj h
  constructor
  · rw [ha, sub_self]
    rfl
  · rwa [ha]
  · rw [ha]
  · rintro - st hst
    cases hst
  · exact hx

theorem Budgeted.step {c : Call} (hb : Budgeted pair amount expirationLedger tr s)
    (ha : c.approves pair = false) (h : step R (e, c) (s, w) = .ok (s', w')) :
    Budgeted pair amount expirationLedger (⟨(s, w), (e, c), (s', w')⟩ :: tr) s' := by
  obtain ⟨hspent, hnonneg, hle, htimely, hexp⟩ := hb
  cases hd : c.drawn pair with
  | none =>
    obtain ⟨hallow, hsame⟩ := Prod.mk.inj (step_grant_eq ha hd h)
    constructor
    · rw [spentBy_cons, hd, hallow, ← hspent]
      exact zero_add _
    · rwa [hallow]
    · rwa [hallow]
    · intro hpos
      refine List.forall_mem_cons.mpr ⟨fun hs => ?_, htimely hpos⟩
      exact absurd hs (by simp [hd])
    · rw [hsame, hexp]
  | some n =>
    obtain ⟨recipient, rfl⟩ := Call.drawn_eq_some.mp hd
    obtain ⟨h0, hn, hlt, hg⟩ := transferFrom_grant (within_eq_ok.mp h).1
    obtain ⟨hallow, hsame⟩ := Prod.mk.inj hg
    have hleft : (s'.allowance pair).val = (s.allowance pair).val - n.val := by
      rw [hallow]
      exact I128.val_sub_of_le h0.le hn
    constructor
    · rw [spentBy_cons, hd, hspent, hleft, Option.elim_some]
      omega
    · rw [hleft]
      exact sub_nonneg.mpr hn
    · rw [hleft]
      omega
    · intro hpos
      refine List.forall_mem_cons.mpr ⟨fun _ => ?_, htimely hpos⟩
      rw [← hexp] at hpos ⊢
      exact hlt hpos
    · rw [← hexp]
      exact hsame

theorem budgeted_run {sw₀ sw : State × W} (h0 : 0 ≤ amount.val)
    (hg : sw₀.1.grant pair = (amount, expirationLedger))
    (h : ((machine contract R).startedIn sw₀).Run (fun _ _ l => l.2.approves pair = false) tr sw) :
    Budgeted pair amount expirationLedger tr sw.1 := by
  refine Machine.Run.invariant
    (I := fun tr sw => Budgeted pair amount expirationLedger tr sw.1) ?_ ?_ h
  · rintro sw rfl
    exact .start h0 hg
  · rintro tr ⟨s, w⟩ ⟨e, c⟩ ⟨s', w'⟩ - hb ha hs
    exact hb.step ha hs

/-- Without an approval there is nothing to draw on. -/
theorem unapproved_run {sw : State × W}
    (h : (machine contract R).Run (fun _ _ l => l.2.approves pair = false) tr sw) :
    sw.1.allowance pair = 0 ∧ ∀ st ∈ tr, st.label.2.drawn pair = none := by
  refine Machine.Run.invariant
    (I := fun tr sw => sw.1.allowance pair = 0 ∧ ∀ st ∈ tr, st.label.2.drawn pair = none) ?_ ?_ h
  · rintro sw ⟨e, admin, name, symbol, projectId, methodology, hs⟩
    rw [(initialise_eq_ok.mp hs).2]
    exact ⟨rfl, fun st hst => absurd hst List.not_mem_nil⟩
  · rintro tr ⟨s, w⟩ ⟨e, c⟩ ⟨s', w'⟩ - ⟨hzero, hnone⟩ ha hs
    have hzero : s.allowance pair = 0 := hzero
    cases hd : c.drawn pair with
    | none =>
      have hg := step_grant_eq ha hd hs
      exact ⟨(congrArg Prod.fst hg).trans hzero, List.forall_mem_cons.mpr ⟨hd, hnone⟩⟩
    | some n =>
      obtain ⟨recipient, rfl⟩ := Call.drawn_eq_some.mp hd
      obtain ⟨h0, hn, -⟩ := transferFrom_grant (within_eq_ok.mp hs).1
      have hz : (s.allowance (pair.1, pair.2)).val = 0 := congrArg I128.val hzero
      omega

/-- The budget of a spender in a run that ends in `sw`. -/
structure BudgetKept (contract : Address) (R : Registry W)
    (tr : Trace (State × W) (Env contract × Call)) (sw : State × W) (pair : Address × Address) :
    Prop where
  unapproved : (∀ st ∈ tr, st.label.2.approves pair = false) →
    sw.1.allowance pair = 0 ∧ ∀ st ∈ tr, st.label.2.drawn pair = none
  approved : ∀ post st pre amount expirationLedger, tr = post ++ st :: pre →
    st.label.2 = .approve pair.1 pair.2 amount expirationLedger →
    (∀ st' ∈ post, st'.label.2.approves pair = false) →
    Budgeted pair amount expirationLedger post sw.1
  moved : ∀ st ∈ tr, ∀ amount, st.label.2.drawn pair = some amount → ∃ recipient,
    st.label.2 = .transferFrom pair.2 pair.1 recipient amount ∧
      Conveyed st.before.1 st.after.1 pair.1 recipient amount
  others : ∀ st ∈ tr, st.label.2.approves pair = false → st.label.2.drawn pair = none →
    st.after.1.allowance pair = st.before.1.allowance pair
  failing : ∀ e c p, (c.drawn pair).isSome = true → step R (e, c) sw = .error p →
    (machine contract R).call sw (e, c) = sw

/-- Every spender keeps to the last approval. -/
theorem budget_kept {sw : State × W} (h : (machine contract R).Run Machine.anyCall tr sw)
    (pair : Address × Address) : BudgetKept contract R tr sw pair := by
  constructor
  · intro ha
    exact unapproved_run (h.restrict ha)
  · rintro post ⟨⟨s₀, w₀⟩, ⟨e, c⟩, ⟨s₁, w₁⟩⟩ pre amount expirationLedger rfl hc ha
    obtain rfl : c = .approve pair.1 pair.2 amount expirationLedger := hc
    obtain ⟨-, -, hs⟩ := h.split
    obtain ⟨h0, hg⟩ := approve_grant (within_eq_ok.mp hs).1
    exact budgeted_run h0 hg (h.since.restrict ha)
  · rintro ⟨⟨s₁, w₁⟩, ⟨e, c⟩, ⟨s₂, w₂⟩⟩ hst n hd
    obtain ⟨_, -, -, hs⟩ := h.mem _ hst
    obtain ⟨recipient, rfl⟩ := Call.drawn_eq_some.mp hd
    exact ⟨recipient, rfl, transferFrom_conveyed (within_eq_ok.mp hs).1⟩
  · rintro st hst ha hd
    obtain ⟨_, -, -, hs⟩ := h.mem st hst
    exact congrArg Prod.fst (step_grant_eq ha hd hs)
  · rintro e c p - hs
    exact Machine.call_of_error (m := machine contract R) hs

section Sample

/-- The spender `2` has taken thirty of its fifty units, and the spender `3` has a budget too. -/
def allotted : State × Unit :=
  (machine home closedRegistry).calls funded
    [signedBy 1 (.approve (.account 1) (.account 2) 50 9),
      signedBy 2 (.transferFrom (.account 2) (.account 1) (.account 2) 30),
      signedBy 1 (.approve (.account 1) (.account 3) 5 0)]

theorem budget_kept_allotted : ∃ tr,
    (machine home closedRegistry).Run Machine.anyCall tr allotted ∧
      BudgetKept home closedRegistry tr allotted (.account 1, .account 2) ∧
      (allotted.1.allowance (.account 1, .account 2)).val = 20 := by
  obtain ⟨tr, h0⟩ := funded_reach.free
  have h1 := h0.call (l := signedBy 1 (.approve (.account 1) (.account 2) 50 9)) trivial (by decide)
  have h2 := h1.call (l := signedBy 2 (.transferFrom (.account 2) (.account 1) (.account 2) 30))
    trivial (by decide)
  have h3 := h2.call (l := signedBy 1 (.approve (.account 1) (.account 3) 5 0)) trivial (by decide)
  exact ⟨_, h3, budget_kept h3 _, by decide⟩

end Sample

end WaterCredits.Token
