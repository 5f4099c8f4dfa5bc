import WaterCredits.Foundation.FiniteSum
import WaterCredits.Foundation.Rounding
import WaterCredits.Market.Calls

/-! # The escrow of the marketplace

What an order has in escrow is not stored: it is what the order still has to
pay. Every fill and every cancellation pays at most that, as rounded parts add
up to at most the rounded whole, so one balance serves all orders.
-/

namespace WaterCredits.Market

open Foundation Function

variable {contract : Address} {W : Type} {T : Tokens W} {e : Env contract} {s s' : State}
  {w w' : W} {id : UInt64} {o : Order} {held : W → Address → ℤ} {token taker : Address}
  {amount payout fee n : I128} {tr : Trace (State × W) (Event contract W)}

/--
The balances of the contract: a token moves exactly the amount that it is asked
for, and nobody else takes from them.
-/
structure Custody (contract : Address) (T : Tokens W) (held : W → Address → ℤ) : Prop where
  nonneg : ∀ w t, 0 ≤ held w t
  transfer : ∀ token (e : Env token) sender recipient amount w w',
    T.transfer token e sender recipient amount w = .ok w' →
      held w' token = held w token - (if sender = contract then amount.val else 0) +
        (if recipient = contract then amount.val else 0) ∧
      ∀ t, t ≠ token → held w t ≤ held w' t
  transferFrom : ∀ token (e : Env token) spender sender recipient amount w w',
    T.transferFrom token e spender sender recipient amount w = .ok w' →
      held w' token = held w token - (if sender = contract then amount.val else 0) +
        (if recipient = contract then amount.val else 0) ∧
      ∀ t, t ≠ token → held w t ≤ held w' t

structure CustodyOf (contract : Address) (T : Tokens W) (token : Address) (held : W → ℤ) :
    Prop where
  nonneg : ∀ w, 0 ≤ held w
  transfer : ∀ (e : Env token) sender recipient amount w w',
    T.transfer token e sender recipient amount w = .ok w' →
      held w' = held w - (if sender = contract then amount.val else 0) +
        (if recipient = contract then amount.val else 0)
  transferFrom : ∀ (e : Env token) spender sender recipient amount w w',
    T.transferFrom token e spender sender recipient amount w = .ok w' →
      held w' = held w - (if sender = contract then amount.val else 0) +
        (if recipient = contract then amount.val else 0)
  transfer_other : ∀ t, t ≠ token → ∀ (e : Env t) sender recipient amount w w',
    T.transfer t e sender recipient amount w = .ok w' → held w ≤ held w'
  transferFrom_other : ∀ t, t ≠ token → ∀ (e : Env t) spender sender recipient amount w w',
    T.transferFrom t e spender sender recipient amount w = .ok w' → held w ≤ held w'

theorem Custody.of (hc : Custody contract T held) (t : Address) :
    CustodyOf contract T t (held · t) where
  nonneg w := hc.nonneg w t
  transfer _ _ _ _ _ _ h := (hc.transfer _ _ _ _ _ _ _ h).1
  transferFrom _ _ _ _ _ _ _ h := (hc.transferFrom _ _ _ _ _ _ _ _ h).1
  transfer_other _ ht _ _ _ _ _ _ h := (hc.transfer _ _ _ _ _ _ _ h).2 t ht.symm
  transferFrom_other _ ht _ _ _ _ _ _ _ h := (hc.transferFrom _ _ _ _ _ _ _ _ h).2 t ht.symm

namespace CustodyOf

variable {balance : W → ℤ} {t : Address} (hc : CustodyOf contract T token balance)

include hc

/-- A payment by somebody else takes nothing from the contract. -/
theorem incoming {spender sender recipient : Address} {e : Env t} (hs : sender ≠ contract)
    (h0 : 0 ≤ amount.val) (h : T.transferFrom t e spender sender recipient amount w = .ok w') :
    balance w ≤ balance w' := by
  by_cases ht : t = token
  · subst ht
    have heq := hc.transferFrom _ _ _ _ _ _ _ h
    rw [if_neg hs] at heq
    split at heq <;> omega
  · exact hc.transferFrom_other t ht _ _ _ _ _ _ _ h

theorem deposited {spender sender : Address} {e : Env t} (hs : sender ≠ contract)
    (h : T.transferFrom t e spender sender contract amount w = .ok w') :
    balance w + (if t = token then amount.val else 0) ≤ balance w' := by
  by_cases ht : t = token
  · subst ht
    have heq := hc.transferFrom _ _ _ _ _ _ _ h
    rw [if_neg hs, if_pos rfl] at heq
    rw [if_pos rfl]
    omega
  · rw [if_neg ht, add_zero]
    exact hc.transferFrom_other t ht _ _ _ _ _ _ _ h

theorem outgoing {sender recipient : Address} {e : Env t} (h0 : 0 ≤ amount.val)
    (h : T.transfer t e sender recipient amount w = .ok w') :
    balance w - (if t = token then amount.val else 0) ≤ balance w' := by
  by_cases ht : t = token
  · subst ht
    have heq := hc.transfer _ _ _ _ _ _ h
    rw [if_pos rfl]
    split at heq <;> split at heq <;> omega
  · rw [if_neg ht, sub_zero]
    exact hc.transfer_other t ht _ _ _ _ _ _ h

end CustodyOf

/--
What the escrow needs of the tokens: a balance of the contract falls only by
what the contract pays, and rises by what is deposited.
-/
structure Steward (contract : Address) (T : Tokens W) (token : Address) (balance : W → ℤ) :
    Prop where
  incoming : ∀ {t spender sender recipient : Address} {e : Env t} {amount : I128} {w w' : W},
    sender ≠ contract → 0 ≤ amount.val →
      T.transferFrom t e spender sender recipient amount w = .ok w' → balance w ≤ balance w'
  deposited : ∀ {t spender sender : Address} {e : Env t} {amount : I128} {w w' : W},
    sender ≠ contract → T.transferFrom t e spender sender contract amount w = .ok w' →
      balance w + (if t = token then amount.val else 0) ≤ balance w'
  outgoing : ∀ {t sender recipient : Address} {e : Env t} {amount : I128} {w w' : W},
    0 ≤ amount.val → T.transfer t e sender recipient amount w = .ok w' →
      balance w - (if t = token then amount.val else 0) ≤ balance w'

theorem CustodyOf.steward {balance : W → ℤ} (hc : CustodyOf contract T token balance) :
    Steward contract T token balance :=
  ⟨hc.incoming, hc.deposited, hc.outgoing⟩

theorem ifPositive_cases {pay : W → Result W} (h : ifPositive amount pay w = .ok w') :
    0 < amount.val ∧ pay w = .ok w' ∨ amount.val ≤ 0 ∧ w' = w := by
  unfold ifPositive at h
  split at h
  · exact .inl ⟨‹_›, h⟩
  · rename_i h0
    exact .inr ⟨not_lt.mp h0, (pure_eq_ok.mp h).symm⟩

namespace Order

def remaining (o : Order) : ℤ := o.amount.val - o.filledAmount.val

/-- The payment for some credits of an order, rounded down. -/
def costOf (o : Order) (n : ℤ) : ℤ := n * o.pricePerCredit.val / PRICE_PRECISION.val

def escrowToken (o : Order) : Address :=
  match o.side with
  | .sell => o.creditToken
  | .buy => o.paymentToken

/-- What an order needs to have in escrow for some of its credits. -/
def cover (o : Order) (n : ℤ) : ℤ :=
  match o.side with
  | .sell => n
  | .buy => o.costOf n

/-- What an order still has to pay. -/
def reserve (o : Order) : ℤ := if o.status.live = true then o.cover o.remaining else 0

structure Valid (id : UInt64) (o : Order) : Prop where
  key : o.id = id
  price : 0 < o.pricePerCredit.val
  filled : 0 ≤ o.filledAmount.val
  bounded : o.filledAmount.val ≤ o.amount.val

theorem precision_val : PRICE_PRECISION.val = 10000000 := by decide

theorem cover_add (o : Order) (m n : ℤ) : o.cover m + o.cover n ≤ o.cover (m + n) := by
  unfold cover costOf
  cases o.side with
  | sell => exact le_rfl
  | buy => exact share_add_le (by decide)

theorem cover_nonneg (hp : 0 < o.pricePerCredit.val) {n : ℤ} (hn : 0 ≤ n) : 0 ≤ o.cover n := by
  unfold cover costOf
  cases o.side with
  | sell => exact hn
  | buy =>
    rw [precision_val]
    exact Int.ediv_nonneg (mul_nonneg hn hp.le) (by norm_num)

theorem Valid.reserve_nonneg (h : o.Valid id) : 0 ≤ o.reserve := by
  have hb := h.bounded
  unfold reserve
  split
  · exact cover_nonneg h.price (sub_nonneg.mpr hb)
  · exact le_rfl

end Order

theorem calculateCost_cases {price cost : I128} (h : calculateCost amount price = .ok cost) :
    0 < price.val ∧ 0 < cost.val ∧ cost.val = amount.val * price.val / PRICE_PRECISION.val := by
  simp only [calculateCost, bind_eq_ok, ensure_eq_ok, orPanic_eq_ok, I128.checkedMul_eq_some,
    pure_eq_ok, not_or, not_le] at h
  obtain ⟨_, ⟨ha, hp⟩, numerator, hn, cost', hd, _, hc, rfl⟩ := h
  have ha : 0 < amount.val := ha
  have hp : 0 < price.val := hp
  have hnum : 0 ≤ numerator.val := hn ▸ (mul_pos ha hp).le
  have hne : PRICE_PRECISION.val ≠ 0 := by decide
  rw [I128.checkedDiv_eq_some hne, Int.tdiv_eq_ediv_of_nonneg hnum, hn] at hd
  exact ⟨hp, hc, hd⟩

theorem calculateFee_cases {cost fee : I128} {feeBps : UInt32} (h0 : 0 ≤ cost.val)
    (hb : feeBps ≤ MAX_FEE_BPS) (h : calculateFee cost feeBps = .ok fee) :
    0 ≤ fee.val ∧ fee.val ≤ cost.val := by
  unfold calculateFee at h
  split at h
  · obtain rfl := pure_eq_ok.mp h
    exact ⟨le_rfl, h0⟩
  · have hbps : feeBps.toNat ≤ 1000 := hb
    have hval : (ofU32 feeBps).val = feeBps.toNat := I128.val_wrap ⟨by omega, by omega⟩
    have hten : BPS_DENOMINATOR.val = 10000 := by decide
    simp only [bind_eq_ok, orPanic_eq_ok, I128.checkedMul_eq_some, hval] at h
    obtain ⟨feeNum, hn, hd⟩ := h
    have hnum : 0 ≤ feeNum.val := hn ▸ mul_nonneg h0 (Int.natCast_nonneg _)
    rw [I128.checkedDiv_eq_some (by rw [hten]; norm_num), Int.tdiv_eq_ediv_of_nonneg hnum, hten]
      at hd
    have hle : feeNum.val ≤ cost.val * 1000 := by
      rw [hn]
      exact mul_le_mul_of_nonneg_left (by exact_mod_cast hbps) h0
    omega

theorem quote_pos (h : s.quote o n = .ok (payout, fee)) : 0 < o.costOf n.val := by
  simp only [State.quote, bind_eq_ok] at h
  obtain ⟨cost, hcost, -⟩ := h
  obtain ⟨-, hpos, hval⟩ := calculateCost_cases hcost
  exact hpos.trans_eq hval

theorem quote_cases (hb : s.feeBps ≤ MAX_FEE_BPS) (h : s.quote o n = .ok (payout, fee)) :
    0 ≤ payout.val ∧ 0 ≤ fee.val ∧ payout.val + fee.val = o.costOf n.val := by
  simp only [State.quote, bind_eq_ok, orPanic_eq_ok, I128.checkedSub_eq_some, pure_eq_ok,
    Prod.mk.injEq] at h
  obtain ⟨cost, hcost, fee', hfee, payout', hpay, rfl, rfl⟩ := h
  obtain ⟨-, h0, hval⟩ := calculateCost_cases hcost
  obtain ⟨hf0, hfle⟩ := calculateFee_cases h0.le hb hfee
  refine ⟨by omega, hf0, ?_⟩
  rw [hpay, Order.costOf, ← hval]
  omega

theorem settle_held {balance : W → ℤ} (hc : Steward contract T token balance)
    (ht : taker ≠ contract) (hb : s.feeBps ≤ MAX_FEE_BPS) (hn : 0 < n.val)
    (hq : s.quote o n = .ok (payout, fee))
    (h : s.settle T e taker o n payout fee w = .ok w') :
    balance w - (if o.escrowToken = token then o.cover n.val else 0) ≤ balance w' := by
  obtain ⟨hp0, hf0, hsum⟩ := quote_cases hb hq
  unfold State.settle at h
  unfold Order.escrowToken Order.cover
  cases ho : o.side with
  | sell =>
    simp only [ho, bind_eq_ok] at h
    obtain ⟨w₁, h1, w₂, h2, h3⟩ := h
    have hle1 : balance w ≤ balance w₁ := by
      rcases ifPositive_cases h1 with ⟨-, h1⟩ | ⟨-, rfl⟩
      · exact hc.incoming ht hp0 h1
      · exact le_rfl
    have hle2 : balance w₁ ≤ balance w₂ := by
      rcases ifPositive_cases h2 with ⟨-, h2⟩ | ⟨-, rfl⟩
      · exact hc.incoming ht hf0 h2
      · exact le_rfl
    have hle3 := hc.outgoing hn.le h3
    simp only
    omega
  | buy =>
    simp only [ho, bind_eq_ok] at h
    obtain ⟨w₁, h1, w₂, h2, h3⟩ := h
    have hle1 := hc.incoming ht hn.le h1
    have hle2 : balance w₁ - (if o.paymentToken = token then payout.val else 0) ≤ balance w₂ := by
      rcases ifPositive_cases h2 with ⟨-, h2⟩ | ⟨hneg, rfl⟩
      · exact hc.outgoing hp0 h2
      · split <;> omega
    have hle3 : balance w₂ - (if o.paymentToken = token then fee.val else 0) ≤ balance w' := by
      rcases ifPositive_cases h3 with ⟨-, h3⟩ | ⟨hneg, rfl⟩
      · exact hc.outgoing hf0 h3
      · split <;> omega
    simp only
    rw [← hsum]
    split at hle2 <;> simp_all <;> omega

def Order.fill (o : Order) (filledAmount : I128) : Order :=
  { o with
    filledAmount
    status := if filledAmount = o.amount then .filled else .partiallyFilled }

theorem internalFillOrder_cases (h : s.internalFillOrder T e taker id n w = .ok (s', w')) :
    0 < n.val ∧ ∃ o payout fee filledAmount, s.order id = some o ∧ o.status.live = true ∧
      n.val ≤ o.remaining ∧ s.quote o n = .ok (payout, fee) ∧
      s.settle T e taker o n payout fee w = .ok w' ∧
      filledAmount.val = o.filledAmount.val + n.val ∧ s'.feeBps = s.feeBps ∧
      s'.orderCount = s.orderCount ∧ s'.order = update s.order o.id (some (o.fill filledAmount)) ∧
      s'.makerOrders = if filledAmount = o.amount then
        (s.removeMakerOrder o.maker o.id).makerOrders else s.makerOrders := by
  simp only [State.internalFillOrder, bind_eq_ok, ensure_eq_ok, orPanic_eq_ok,
    I128.checkedSub_eq_some, I128.checkedAdd_eq_some] at h
  obtain ⟨_, h0, o, ho, _, hlive, remaining, hr, _, hle, ⟨payout, fee⟩, hq, w₁, hs, filledAmount,
    hf, h⟩ := h
  refine ⟨h0, o, payout, fee, filledAmount, ho, hlive, ?_, hq, ?_⟩
  · rw [I128.le_iff, hr] at hle
    exact hle
  · split at h
    · rename_i hfull
      cases h
      refine ⟨hs, hf, rfl, rfl, ?_, (if_pos hfull).symm⟩
      simp [Order.fill, hfull, State.saveOrder, State.removeMakerOrder]
    · rename_i hpart
      cases h
      refine ⟨hs, hf, rfl, rfl, ?_, (if_neg hpart).symm⟩
      simp [Order.fill, hpart, State.saveOrder]

theorem Order.reserve_fill {filledAmount : I128} (hlive : o.status.live = true)
    (hf : filledAmount.val = o.filledAmount.val + n.val) :
    (o.fill filledAmount).reserve + o.cover n.val ≤ o.reserve := by
  have hadd := o.cover_add (o.remaining - n.val) n.val
  rw [sub_add_cancel] at hadd
  have hrest : (o.fill filledAmount).reserve ≤ o.cover (o.remaining - n.val) := by
    have hrem : (o.fill filledAmount).remaining = o.remaining - n.val := by
      simp only [Order.remaining, Order.fill, hf]
      omega
    have hcover : (o.fill filledAmount).cover = o.cover := rfl
    unfold Order.reserve
    rw [hcover, hrem]
    unfold Order.fill
    by_cases hfull : filledAmount = o.amount
    · have hzero : o.remaining - n.val = 0 := by
        unfold Order.remaining
        rw [← hfull, hf]
        omega
      have h0 : o.cover 0 = 0 := by
        unfold Order.cover Order.costOf
        cases o.side <;> simp
      simp [hfull, OrderStatus.live, hzero, h0]
    · simp [hfull, OrderStatus.live]
  rw [show o.reserve = o.cover o.remaining from if_pos hlive]
  omega

def OrderSide.deposit (side : OrderSide) (amount totalCost : I128) : I128 :=
  match side with
  | .sell => amount
  | .buy => totalCost

structure Order.Opened (deposit : I128) (o : Order) : Prop where
  price : 0 < o.pricePerCredit.val
  positive : 0 < o.amount.val
  unfilled : o.filledAmount.val = 0
  status : o.status = .opened
  cover_eq : o.cover o.amount.val = deposit.val

theorem Order.Opened.reserve_eq {d : I128} (h : o.Opened d) : o.reserve = o.cover o.amount.val := by
  simp [Order.reserve, Order.remaining, h.status, h.unfilled, OrderStatus.live]

theorem createOrder_cases {side : OrderSide} {maker creditToken paymentToken : Address}
    {amount price : I128} {newId : UInt64}
    (h : s.createOrder T e side maker creditToken paymentToken amount price w =
      .ok (newId, s', w')) :
    e.auth maker = true ∧ s.orderCount.toNat + 1 < 2 ^ 64 ∧
      ∃ totalCost, calculateCost amount price = .ok totalCost ∧
      ∃ o : Order, o.Opened (side.deposit amount totalCost) ∧ o.id = s.orderCount + 1 ∧
        o.maker = maker ∧ o.amount = amount ∧ o.pricePerCredit = price ∧
        T.transferFrom o.escrowToken (e.invoke o.escrowToken) contract maker contract
          (side.deposit amount totalCost) w = .ok w' ∧
        s'.feeBps = s.feeBps ∧ s'.orderCount = s.orderCount + 1 ∧
        s'.order = update s.order (s.orderCount + 1) (some o) ∧
        (s.makerOrders maker).length < MAX_OPEN_ORDERS_PER_MAKER ∧
        s'.makerOrders =
          update s.makerOrders maker (s.makerOrders maker ++ [s.orderCount + 1]) := by
  cases side with
  | sell =>
    simp only [State.createOrder, bind_eq_ok, State.requireNotPaused_eq_ok, Env.requireAuth_eq_ok,
      ensure_eq_ok, State.addMakerOrder_eq_ok, pure_eq_ok, Prod.mk.injEq] at h
    obtain ⟨_, -, _, hauth, _, hpos, _, hprice, totalCost, hcost, w₁, hw, _, hcount, s₁,
      ⟨hroom, rfl⟩, -, rfl, rfl⟩ := h
    refine ⟨hauth, hcount, totalCost, hcost, _, ?_, rfl, rfl, rfl, rfl, ?_, rfl, rfl, rfl, hroom,
      rfl⟩
    · exact ⟨hprice, hpos, rfl, rfl, rfl⟩
    · exact hw
  | buy =>
    simp only [State.createOrder, bind_eq_ok, State.requireNotPaused_eq_ok, Env.requireAuth_eq_ok,
      ensure_eq_ok, State.addMakerOrder_eq_ok, pure_eq_ok, Prod.mk.injEq] at h
    obtain ⟨_, -, _, hauth, _, hpos, _, hprice, totalCost, hcost, w₁, hw, _, hcount, s₁,
      ⟨hroom, rfl⟩, -, rfl, rfl⟩ := h
    obtain ⟨-, -, hval⟩ := calculateCost_cases hcost
    refine ⟨hauth, hcount, totalCost, hcost, _, ?_, rfl, rfl, rfl, rfl, ?_, rfl, rfl, rfl, hroom,
      rfl⟩
    · exact ⟨hprice, hpos, rfl, rfl, hval.symm⟩
    · exact hw

def Order.cancel (o : Order) : Order := { o with status := .cancelled }

@[simp] theorem Order.reserve_cancel (o : Order) : o.cancel.reserve = 0 := by
  simp [Order.reserve, Order.cancel, OrderStatus.live]

theorem cancelOrder_cases {maker : Address} (h : s.cancelOrder T e maker id w = .ok (s', w')) :
    ∃ o refund, s.order id = some o ∧ o.status.live = true ∧ refund.val = o.reserve ∧
      (o.side = .buy → 0 < refund.val) ∧ o.maker = maker ∧
      ifPositive refund
        (T.transfer o.escrowToken (e.invoke o.escrowToken) contract maker refund) w = .ok w' ∧
      s'.feeBps = s.feeBps ∧ s'.orderCount = s.orderCount ∧
      s'.order = update s.order o.id (some o.cancel) ∧
      s'.makerOrders = (s.removeMakerOrder o.maker o.id).makerOrders := by
  simp only [State.cancelOrder, bind_eq_ok, Env.requireAuth_eq_ok, ensure_eq_ok, orPanic_eq_ok,
    I128.checkedSub_eq_some] at h
  obtain ⟨_, -, o, ho, _, rfl, _, hlive, remaining, hr, h⟩ := h
  have hreserve : o.reserve = o.cover remaining.val := by
    rw [Order.reserve, if_pos hlive, Order.remaining, hr]
  cases hside : o.side with
  | sell =>
    simp only [hside, bind_eq_ok, pure_eq_ok, Prod.mk.injEq] at h
    obtain ⟨w₁, hw, rfl, rfl⟩ := h
    refine ⟨o, remaining, ho, hlive, ?_, by simp [hside], rfl, ?_, rfl, rfl, ?_, rfl⟩
    · simp [hreserve, Order.cover, hside]
    · have htoken : o.escrowToken = o.creditToken := by simp [Order.escrowToken, hside]
      rw [htoken]
      exact hw
    · simp [State.saveOrder, State.removeMakerOrder, Order.cancel, hside]
  | buy =>
    simp only [hside, bind_eq_ok, pure_eq_ok, Prod.mk.injEq] at h
    obtain ⟨cost, hcost, w₁, hw, rfl, rfl⟩ := h
    obtain ⟨-, hpos, hval⟩ := calculateCost_cases hcost
    refine ⟨o, cost, ho, hlive, ?_, fun _ => hpos, rfl, ?_, rfl, rfl, ?_, rfl⟩
    · simp [hreserve, Order.cover, Order.costOf, hside, hval]
    · have htoken : o.escrowToken = o.paymentToken := by simp [Order.escrowToken, hside]
      rw [htoken]
      exact hw
    · simp [State.saveOrder, State.removeMakerOrder, Order.cancel, hside]

theorem fillLoop_invariant {I : State → W → Prop} {fills : List (UInt64 × I128)}
    (hfill : ∀ {s w id n s' w'}, I s w →
      s.internalFillOrder T e taker id n w = .ok (s', w') → I s' w')
    (h0 : I s w) (h : State.fillLoop T e taker fills s w = .ok (s', w')) : I s' w' := by
  induction fills generalizing s w with
  | nil =>
    cases h
    exact h0
  | cons p rest ih =>
    simp only [State.fillLoop, bind_eq_ok] at h
    obtain ⟨⟨s₁, w₁⟩, h1, h2⟩ := h
    exact ih (hfill h0 h1) h2

def Call.administers : Call → Bool
  | .setAdmin .. | .setFee .. | .pause .. | .unpause .. => true
  | _ => false

/-- The admin leaves all orders alone, and sets no fee above the bound. -/
theorem execute_administers {c : Call} (hc : c.administers = true)
    (h : execute T e s w c = .ok (s', w')) :
    s'.order = s.order ∧ s'.orderCount = s.orderCount ∧ s'.makerOrders = s.makerOrders ∧
      (s'.feeBps = s.feeBps ∨ s'.feeBps ≤ MAX_FEE_BPS) ∧ w' = w := by
  cases c <;> simp only [Call.administers, Bool.false_eq_true] at hc <;>
    simp only [execute, within_eq_ok] at h
  case setFee =>
    simp only [State.setFee, bind_eq_ok, ensure_eq_ok, pure_eq_ok] at h
    obtain ⟨⟨_, -, _, hfee, rfl⟩, rfl⟩ := h
    exact ⟨rfl, rfl, rfl, .inr hfee, rfl⟩
  all_goals
    simp only [State.setAdmin, State.pause, State.unpause, bind_eq_ok, pure_eq_ok] at h
    obtain ⟨⟨_, -, rfl⟩, rfl⟩ := h
    exact ⟨rfl, rfl, rfl, .inl rfl, rfl⟩

/-- An accepted call opens an order, fills some, cancels one, or leaves them all alone. -/
theorem execute_cases {c : Call} (h : execute T e s w c = .ok (s', w')) :
    (s'.order = s.order ∧ s'.orderCount = s.orderCount ∧ s'.makerOrders = s.makerOrders ∧
        (s'.feeBps = s.feeBps ∨ s'.feeBps ≤ MAX_FEE_BPS) ∧ w' = w) ∨
      (∃ side maker creditToken paymentToken amount price newId,
        s.createOrder T e side maker creditToken paymentToken amount price w =
          .ok (newId, s', w')) ∨
      (∃ taker fills, e.auth taker = true ∧ State.fillLoop T e taker fills s w = .ok (s', w')) ∨
      ∃ maker id, s.cancelOrder T e maker id w = .ok (s', w') := by
  cases c with
  | initialise => simp [execute, Market.initialise] at h
  | setAdmin | setFee | pause | unpause => exact .inl (execute_administers rfl h)
  | createSellOrder | createBuyOrder =>
    obtain ⟨id, h⟩ := discard_eq_ok.mp h
    exact .inr (.inl ⟨_, _, _, _, _, _, id, h⟩)
  | fillOrder taker orderId fillAmount =>
    simp only [execute, State.fillOrder, bind_eq_ok, Env.requireAuth_eq_ok] at h
    obtain ⟨_, -, _, hauth, h⟩ := h
    have hloop : State.fillLoop T e taker [(orderId, fillAmount)] s w = .ok (s', w') := by
      simp [State.fillLoop, h]
    exact .inr (.inr (.inl ⟨taker, _, hauth, hloop⟩))
  | batchFillOrders taker =>
    simp only [execute, State.batchFillOrders, bind_eq_ok, Env.requireAuth_eq_ok] at h
    obtain ⟨_, -, _, hauth, _, -, _, -, h⟩ := h
    exact .inr (.inr (.inl ⟨taker, _, hauth, h⟩))
  | cancelOrder maker orderId => exact .inr (.inr (.inr ⟨maker, orderId, h⟩))

end WaterCredits.Market
