import WaterCredits.Market.Rounding

/-! # Cancelling orders

The balance of the contract in one honest token covers the reserves of its
orders, whatever other tokens do. So the refund of a live order can be paid. A
cancellation still fails when the refund is computed to be zero, and then the
order cannot be filled either.
-/

namespace WaterCredits.Market

open Foundation Function

variable {contract : Address} {W : Type} {T : Tokens W} {e : Env contract} {s s' : State}
  {w w' : W} {id : UInt64} {o : Order} {taker maker token : Address} {n : I128}
  {sw sw' : State × W} {tr : Trace (State × W) (Event contract W)} {balance : W → ℤ}

/-- Outside its own calls nobody takes from the balance of the contract in one token. -/
def UndisturbedOf (balance : W → ℤ) : Guard (State × W) (Event contract W)
  | _, _, .call _ _ => True
  | _, sw, .outside w' => balance sw.2 ≤ balance w'

theorem execute_excess {c : Call} (hc : Steward contract T token balance) (hr : s.Ready)
    (h : execute T e s w c = .ok (s', w')) :
    excess balance token (s, w) ≤ excess balance token (s', w') := by
  rcases execute_cases h with ⟨ho, -, -, -, rfl⟩ | ⟨_, _, _, _, _, _, _, h⟩ | ⟨_, _, hauth, h⟩ |
    ⟨_, _, h⟩
  · exact excess_idle ho le_rfl
  · exact createOrder_excess hc hr h
  · exact fillLoop_excess hc (e.ne_self hauth) hr h
  · exact cancelOrder_excess hc hr h

theorem covered_run (hc : CustodyOf contract T token balance)
    (h : (machine contract T).Run (UndisturbedOf balance) tr sw) :
    ∑ᶠ id, sw.1.owed token id ≤ balance sw.2 := by
  have hexcess : 0 ≤ excess balance token sw := by
    refine h.invariant (I := fun _ sw => 0 ≤ excess balance token sw) ?_ ?_
    · rintro ⟨s, w⟩ ⟨admin, feeBps, feeRecipient, hs⟩
      obtain ⟨-, -, rfl⟩ := initialise_eq_ok.mp hs
      simpa [excess, State.owed] using hc.nonneg w
    · rintro tr sw ev sw' hr hi hg hs
      cases ev with
      | call e c => exact hi.trans (execute_excess hc.steward (book_run hr).1.ready hs)
      | outside w =>
        cases hs
        exact hi.trans (excess_idle rfl hg)
  exact sub_nonneg.mp hexcess

theorem reserve_le_owed (hr : s.Ready) (ho : s.order id = some o) :
    o.reserve ≤ ∑ᶠ id, s.owed o.escrowToken id := by
  have h0 (i : UInt64) : 0 ≤ s.owed o.escrowToken i := by
    unfold State.owed
    split
    · rename_i oi hi
      split
      · exact (hr.valid i oi hi).reserve_nonneg
      · exact le_rfl
    · exact le_rfl
  have howed : s.owed o.escrowToken id = o.reserve := by simp [State.owed, ho]
  exact howed ▸ le_finsum (Set.toFinite _) h0 id

def Pays (contract : Address) (T : Tokens W) (token : Address) (balance : W → ℤ) (w : W) : Prop :=
  ∀ (e : Env contract) recipient (amount : I128), 0 < amount.val → amount.val ≤ balance w →
    ∃ w', T.transfer token (e.invoke token) contract recipient amount w = .ok w'

/-- The rest of a buy order is worth at least one unit of the payment token. -/
def Order.Refundable (o : Order) : Prop :=
  o.side = .sell ∨ PRICE_PRECISION.val ≤ o.remaining * o.pricePerCredit.val

instance decidableRefundable (o : Order) : Decidable o.Refundable := instDecidableOr

theorem Order.costOf_pos_iff {m : ℤ} :
    0 < o.costOf m ↔ PRICE_PRECISION.val ≤ m * o.pricePerCredit.val := by
  have hd : 0 < PRICE_PRECISION.val := by decide
  rw [Order.costOf, Int.lt_iff_add_one_le, zero_add, Int.le_ediv_iff_mul_le hd, one_mul]

/-- A part of a priced amount has a cost unless it rounds to zero. -/
theorem calculateCost_ok {amount price total : I128} (h : calculateCost amount price = .ok total)
    (h0 : 0 < n.val) (hle : n.val ≤ amount.val)
    (hcost : PRICE_PRECISION.val ≤ n.val * price.val) :
    ∃ cost, calculateCost n price = .ok cost := by
  have hne : PRICE_PRECISION.val ≠ 0 := by decide
  rw [Order.precision_val] at hcost
  simp only [calculateCost, bind_eq_ok, ensure_eq_ok, orPanic_eq_ok, I128.checkedMul_eq_some,
    pure_eq_ok, not_or, not_le] at h ⊢
  obtain ⟨_, ⟨-, hp⟩, total', htotal, -⟩ := h
  have hmul : n.val * price.val ≤ amount.val * price.val :=
    mul_le_mul_of_nonneg_right hle (le_of_lt hp)
  have hlt := total'.fits.2
  have hnum : (I128.wrap (n.val * price.val)).val = n.val * price.val :=
    I128.val_wrap ⟨by omega, by omega⟩
  have hquot : (I128.wrap (n.val * price.val / 10000000)).val = n.val * price.val / 10000000 :=
    I128.val_wrap ⟨by omega, by omega⟩
  refine ⟨_, (), ⟨h0, hp⟩, _, hnum, .wrap (n.val * price.val / 10000000), ?_, (), ?_, rfl⟩
  · rw [I128.checkedDiv_eq_some hne, Order.precision_val, hnum, hquot,
      Int.tdiv_eq_ediv_of_nonneg (by omega)]
  · rw [I128.lt_iff, hquot, I128.val_zero]
    omega

theorem Order.Valid.exists_remaining (h : o.Valid id) :
    ∃ remaining, o.amount.checkedSub o.filledAmount = some remaining ∧
      remaining.val = o.remaining := by
  have hfits := I128.fits_sub h.filled h.bounded
  exact ⟨_, I128.checkedSub_eq_some.mpr (I128.val_wrap hfits), I128.val_wrap hfits⟩

theorem cancelOrder_ok {remaining refund : I128} (hauth : e.auth o.maker = true)
    (ho : s.order id = some o) (hlive : o.status.live = true)
    (hrem : o.amount.checkedSub o.filledAmount = some remaining)
    (hrefund : match o.side with
      | .sell => remaining = refund
      | .buy => calculateCost remaining o.pricePerCredit = .ok refund)
    (hpay : ifPositive refund (T.transfer o.escrowToken (e.invoke o.escrowToken) contract o.maker
      refund) w = .ok w') :
    ∃ s', s.cancelOrder T e o.maker id w = .ok (s', w') := by
  refine ⟨(s.saveOrder o.cancel).removeMakerOrder o.maker o.id, ?_⟩
  simp only [State.cancelOrder, bind_eq_ok, Env.requireAuth_eq_ok, ensure_eq_ok, orPanic_eq_ok]
  refine ⟨(), hauth, o, ho, (), rfl, (), hlive, remaining, hrem, ?_⟩
  cases hside : o.side with
  | sell =>
    have htoken : o.escrowToken = o.creditToken := by simp [Order.escrowToken, hside]
    simp only [hside] at hrefund
    rw [htoken, ← hrefund] at hpay
    simp only [bind_eq_ok, pure_eq_ok]
    exact ⟨w', hpay, by simp [Order.cancel, hside]⟩
  | buy =>
    have htoken : o.escrowToken = o.paymentToken := by simp [Order.escrowToken, hside]
    simp only [hside] at hrefund
    rw [htoken] at hpay
    simp only [bind_eq_ok, pure_eq_ok]
    exact ⟨refund, hrefund, w', hpay, by simp [Order.cancel, hside]⟩

/-- An accepted cancellation by the maker pays the refund and frees the place of the order. -/
structure Cancelled (T : Tokens W) (e : Env contract) (sw sw' : State × W) (id : UInt64) (o : Order)
    (refund : I128) : Prop where
  accepted : execute T e sw.1 sw.2 (.cancelOrder o.maker id) = .ok sw'
  paid : T.transfer o.escrowToken (e.invoke o.escrowToken) contract o.maker refund sw.2 = .ok sw'.2
  cancelled : sw'.1.order id = some o.cancel
  unlisted : id ∉ sw'.1.makerOrders o.maker
  freed : (sw'.1.makerOrders o.maker).length + 1 = (sw.1.makerOrders o.maker).length

/-- The maker can cancel the order, and gets this amount back. -/
def Cancels (T : Tokens W) (e : Env contract) (sw : State × W) (id : UInt64) (o : Order)
    (amount : ℤ) : Prop :=
  ∃ sw' refund, refund.val = amount ∧ Cancelled T e sw sw' id o refund

/-- Throughout every run from here on the order is neither filled nor cancelled. -/
def Stuck (contract : Address) (T : Tokens W) (sw : State × W) (id : UInt64) : Prop :=
  ∀ tr sw', ((machine contract T).startedIn sw).Run Machine.anyCall tr sw' →
    sw'.1.order id = sw.1.order id

/-- The reserve of a live order is positive exactly when it can be refunded. -/
theorem Order.Proper.reserve_pos_iff (h : o.Proper id) (hlive : o.status.live = true) :
    0 < o.reserve ↔ o.Refundable := by
  have hrem := h.remaining_pos hlive
  rw [Order.reserve, if_pos hlive]
  unfold Order.cover Order.Refundable
  cases hside : o.side with
  | sell => simp [hrem]
  | buy => simp [Order.costOf_pos_iff]

theorem cancelOrder_cancelled (hb : Book s) (ho : s.order id = some o)
    (h : s.cancelOrder T e o.maker id w = .ok (s', w')) :
    ∃ refund, refund.val = o.reserve ∧ 0 < o.reserve ∧
      Cancelled T e (s, w) (s', w') id o refund := by
  obtain ⟨o', refund, ho', hlive, hval, hbuy, -, hw, -, -, hs, hmo⟩ := cancelOrder_cases h
  cases ho.symm.trans ho'
  have hp := hb.proper id o ho
  rw [hp.key] at hs hmo
  have hlisted : s.Live o.maker id := ⟨o, ho, rfl, hlive⟩
  have hpos : 0 < o.reserve := by
    cases hside : o.side with
    | sell => exact (hp.reserve_pos_iff hlive).mpr (.inl hside)
    | buy => exact hval ▸ hbuy hside
  have hmaker : s'.makerOrders o.maker = (s.makerOrders o.maker).filter (· ≠ id) := by
    rw [hmo]
    exact update_self _ _ _
  refine ⟨refund, hval, hpos, h, ?_, ?_, ?_, ?_⟩
  · rcases ifPositive_cases hw with ⟨-, hw⟩ | ⟨hle, -⟩
    · exact hw
    · omega
  · simp only [hs, update_self]
  · simp [hmaker]
  · rw [hmaker]
    exact (hb.index o.maker).length_erase hlisted

theorem cancels_of_paid (hb : Book s) (ho : s.order id = some o) (hlive : o.status.live = true)
    (hr : o.Refundable) (hauth : e.auth o.maker = true)
    (hpay : ∀ refund : I128, refund.val = o.reserve → ∃ w',
      T.transfer o.escrowToken (e.invoke o.escrowToken) contract o.maker refund w = .ok w') :
    Cancels T e (s, w) id o o.reserve := by
  have hp := hb.proper id o ho
  obtain ⟨remaining, hrem, hval⟩ := hp.exists_remaining
  have hrefund : ∃ refund : I128, refund.val = o.reserve ∧ match o.side with
      | .sell => remaining = refund
      | .buy => calculateCost remaining o.pricePerCredit = .ok refund := by
    rw [Order.reserve, if_pos hlive]
    unfold Order.cover
    cases hside : o.side with
    | sell => exact ⟨remaining, hval, rfl⟩
    | buy =>
      obtain ⟨total, htotal⟩ := hp.priced
      have hfilled := hp.filled
      have hcost : PRICE_PRECISION.val ≤ remaining.val * o.pricePerCredit.val := by
        rw [hval]
        exact hr.resolve_left (by simp [hside])
      have hrest : remaining.val ≤ o.amount.val := by
        unfold Order.remaining at hval
        omega
      obtain ⟨cost, hc⟩ := calculateCost_ok htotal (hval ▸ hp.remaining_pos hlive) hrest hcost
      obtain ⟨-, -, hcval⟩ := calculateCost_cases hc
      exact ⟨cost, by rw [hcval, hval, Order.costOf], hc⟩
  obtain ⟨refund, hamount, hrefund⟩ := hrefund
  have hpos := (hp.reserve_pos_iff hlive).mpr hr
  obtain ⟨w', hw⟩ := hpay refund hamount
  have hpaid : ifPositive refund (T.transfer o.escrowToken (e.invoke o.escrowToken) contract o.maker
      refund) w = .ok w' := by
    rw [ifPositive, if_pos (by rw [I128.lt_iff, I128.val_zero]; omega)]
    exact hw
  obtain ⟨s', hcancel⟩ := cancelOrder_ok hauth ho hlive hrem hrefund hpaid
  obtain ⟨refund', hval', -, hdone⟩ := cancelOrder_cancelled hb ho hcancel
  exact ⟨_, refund', hval', hdone⟩

theorem cancels_of_refundable (hb : Book s) (ho : s.order id = some o)
    (hlive : o.status.live = true) (hr : o.Refundable) (hauth : e.auth o.maker = true)
    (hpay : Pays contract T o.escrowToken balance w) (hle : o.reserve ≤ balance w) :
    Cancels T e (s, w) id o o.reserve := by
  have hpos := ((hb.proper id o ho).reserve_pos_iff hlive).mpr hr
  refine cancels_of_paid hb ho hlive hr hauth fun refund hamount => ?_
  exact hpay e o.maker refund (by omega) (by omega)

/-- A cancellation pays the reserve of the order and nothing else. -/
theorem cancels_iff (hc : CustodyOf contract T o.escrowToken balance) (hb : Book s)
    (ho : s.order id = some o) (hlive : o.status.live = true) (hauth : e.auth o.maker = true)
    (hpay : Pays contract T o.escrowToken balance w) (hle : o.reserve ≤ balance w) (amount : ℤ) :
    Cancels T e (s, w) id o amount ↔ o.Refundable ∧ amount = o.reserve := by
  constructor
  · rintro ⟨⟨s', w'⟩, refund, rfl, h⟩
    obtain ⟨refund', hval, hpos, h'⟩ := cancelOrder_cancelled hb ho h.accepted
    have hpaid := hc.transfer _ _ _ _ _ _ h.paid
    have hpaid' := hc.transfer _ _ _ _ _ _ h'.paid
    have heq : refund.val = refund'.val := by
      rw [if_pos rfl, if_neg (e.ne_self hauth)] at hpaid hpaid'
      dsimp only at hpaid hpaid'
      omega
    exact ⟨((hb.proper id o ho).reserve_pos_iff hlive).mp hpos, by omega⟩
  · rintro ⟨hr, rfl⟩
    exact cancels_of_refundable hb ho hlive hr hauth hpay hle

/-- The reserve of an order is all of its escrow that is left, when the fills are even. -/
theorem Settled.escrow_left_iff {a : Account} (h : Settled o a) (hlive : o.status.live = true) :
    a.escrowed - a.paid = o.reserve ↔ (o.side = .buy → o.Even a.fills) := by
  rw [h.escrowed, h.paid_live hlive, Order.reserve, if_pos hlive, Order.remaining, h.filled]
  unfold Order.cover
  cases hside : o.side with
  | sell => simp
  | buy =>
    simp only [forall_const]
    rw [← Order.costs_eq_iff, sub_eq_iff_eq_add', eq_comm]

theorem internalFillOrder_stuck {orderId : UInt64} (hb : Book s) (ho : s.order id = some o)
    (hn : ¬ o.Refundable) (h : s.internalFillOrder T e taker orderId n w = .ok (s', w')) :
    s'.order id = some o := by
  obtain ⟨hpos, o', _, _, _, ho', -, hle, hq, -, -, -, -, hs, -⟩ := internalFillOrder_cases h
  rw [(hb.proper orderId o' ho').key] at hs
  have hne : id ≠ orderId := by
    rintro rfl
    cases ho.symm.trans ho'
    have hcost := Order.costOf_pos_iff.mp (quote_pos hq)
    have hmul := mul_le_mul_of_nonneg_right hle (hb.proper id o ho).price.le
    exact hn (.inr (hcost.trans hmul))
  rw [hs, update_of_ne hne, ho]

theorem createOrder_stuck {side : OrderSide} {creditToken paymentToken : Address}
    {amount price : I128} {newId : UInt64} (hb : Book s) (ho : s.order id = some o)
    (h : s.createOrder T e side maker creditToken paymentToken amount price w =
      .ok (newId, s', w')) : s'.order id = some o := by
  obtain ⟨-, hcount, _, -, _, -, -, -, -, -, -, -, -, hs, -⟩ := createOrder_cases h
  have hne : id ≠ s.orderCount + 1 := by
    rintro rfl
    exact hb.ready.not_fresh ho (lt_next hcount)
  rw [hs, update_of_ne hne, ho]

theorem cancelOrder_stuck {orderId : UInt64} (hb : Book s) (ho : s.order id = some o)
    (hn : ¬ o.Refundable) (h : s.cancelOrder T e maker orderId w = .ok (s', w')) :
    s'.order id = some o := by
  obtain ⟨o', refund, ho', hlive, hval, hbuy, -, -, -, -, hs, -⟩ := cancelOrder_cases h
  have hp := hb.proper orderId o' ho'
  rw [hp.key] at hs
  have hne : id ≠ orderId := by
    rintro rfl
    cases ho.symm.trans ho'
    have hside : o.side = .buy := by
      cases hside : o.side with
      | sell => exact absurd (.inl hside) hn
      | buy => rfl
    exact hn ((hp.reserve_pos_iff hlive).mp (hval ▸ hbuy hside))
  rw [hs, update_of_ne hne, ho]

theorem execute_stuck {c : Call} (hb : Book s) (ho : s.order id = some o) (hn : ¬ o.Refundable)
    (h : execute T e s w c = .ok (s', w')) : s'.order id = some o := by
  rcases execute_cases h with ⟨hs, -⟩ | ⟨_, _, _, _, _, _, _, h⟩ | ⟨taker, _, -, h⟩ | ⟨_, _, h⟩
  · rw [hs, ho]
  · exact createOrder_stuck hb ho h
  · refine (fillLoop_invariant (I := fun s _ => Book s ∧ s.order id = some o) ?_ ⟨hb, ho⟩ h).2
    rintro s w orderId n s' w' ⟨hb, ho⟩ h
    exact ⟨(internalFillOrder_turns hb h).book, internalFillOrder_stuck hb ho hn h⟩
  · exact cancelOrder_stuck hb ho hn h

theorem stuck_of_not_refundable (hb : Book sw.1) (ho : sw.1.order id = some o)
    (hn : ¬ o.Refundable) : Stuck contract T sw id := by
  intro tr sw' h
  have hkeep : Book sw'.1 ∧ sw'.1.order id = some o := by
    refine h.invariant (I := fun _ sw => Book sw.1 ∧ sw.1.order id = some o) ?_ ?_
    · rintro _ rfl
      exact ⟨hb, ho⟩
    · rintro tr sw ev sw' - ⟨hb, ho⟩ - hs
      cases ev with
      | call e c => exact ⟨(execute_turns hb hs).book, execute_stuck hb ho hn hs⟩
      | outside w =>
        cases hs
        exact ⟨hb, ho⟩
  rw [hkeep.2, ho]

theorem Cancels.not_stuck {amount : ℤ} (h : Cancels T e sw id o amount)
    (ho : sw.1.order id = some o) (hlive : o.status.live = true) : ¬ Stuck contract T sw id := by
  intro hstuck
  obtain ⟨sw', _, -, hdone⟩ := h
  have hstep : ((machine contract T).startedIn sw).step (.call e (.cancelOrder o.maker id)) sw =
    .ok sw' := hdone.accepted
  have hsame := hstuck _ _ (.step (.init rfl) trivial hstep)
  rw [hdone.cancelled, ho, Option.some.injEq] at hsame
  rw [← hsame] at hlive
  cases hlive

/--
The maker can cancel a live order for all of its escrow that is left when the
rest can be refunded and the fills are even. An order that cannot be refunded
is stuck with its escrow, and no other live order is.
-/
theorem cancel_iff (hc : CustodyOf contract T o.escrowToken balance)
    (h : (machine contract T).Run (UndisturbedOf balance) tr sw) (ho : sw.1.order id = some o)
    (hlive : o.status.live = true) (hpay : Pays contract T o.escrowToken balance sw.2)
    (hauth : e.auth o.maker = true) :
    (Cancels T e sw id o (paidIn tr id - paidOut tr id) ↔
        o.Refundable ∧ (o.side = .buy → o.Even (fillsOf id tr))) ∧
      (Cancels T e sw id o o.reserve ↔ o.Refundable) ∧
      (Stuck contract T sw id ↔ ¬ o.Refundable) := by
  have hb := (book_run h).1
  have hle : o.reserve ≤ balance sw.2 :=
    (reserve_le_owed hb.ready ho).trans (covered_run hc h)
  have hcancel := cancels_iff hc hb ho hlive hauth hpay hle
  have hleft : paidIn tr id - paidOut tr id = o.reserve ↔
      (o.side = .buy → o.Even (fillsOf id tr)) :=
    ((kept_run h).stored o ho).escrow_left_iff hlive
  refine ⟨?_, ?_, ?_⟩
  · rw [← hleft]
    exact hcancel _
  · exact (hcancel _).trans (and_iff_left rfl)
  · constructor
    · exact fun hs hr => ((hcancel _).mpr ⟨hr, rfl⟩).not_stuck ho hlive hs
    · exact stuck_of_not_refundable hb ho

section Sample

theorem plainTokens_pays (token : Address) (w : Holdings) :
    Pays market plainTokens token (heldBy market · token) w := by
  intro e recipient amount h0 hle
  have hfunds : 0 ≤ amount.val ∧ amount.val ≤ w token market := ⟨h0.le, hle⟩
  simp [plainTokens, Holdings.move, hfunds]

def begun (amount filledAmount pricePerCredit : I128) : Order where
  id := 1
  maker := .account 1
  side := .buy
  creditToken := .contract 7
  paymentToken := .contract 8
  amount := amount
  filledAmount := filledAmount
  pricePerCredit := pricePerCredit
  createdAt := 0
  status := .partiallyFilled

/-- The account of the sample orders authorises a call. -/
abbrev byMaker : Env market := .signed 0 0 (.account 1) account_ne_contract

/-- The rest of an order for ten credits at one and a half is cancelled after a fill of six. -/
theorem cancel_iff_even : ∃ tr sw,
    (machine market plainTokens).Run (UndisturbedOf (heldBy market · (.contract 8))) tr sw ∧
      sw.1.order 1 = some (begun 10 6 15000000) ∧ paidIn tr 1 - paidOut tr 1 = 6 ∧
      Cancels plainTokens byMaker sw 1 (begun 10 6 15000000) (paidIn tr 1 - paidOut tr 1) ∧
      ¬ Stuck market plainTokens sw 1 := by
  have h0 := Machine.Run.init (m := machine market plainTokens)
    (G := UndisturbedOf (heldBy market · (.contract 8))) (s := opened)
    ⟨.account 0, 1000, .account 0, by rfl⟩
  have h1 := h0.call
    (l := signedBy 1 (.createBuyOrder (.account 1) (.contract 7) (.contract 8) 10 15000000))
    trivial (by rfl)
  have h2 := h1.call (l := signedBy 2 (.fillOrder (.account 2) 1 6)) trivial (by rfl)
  obtain ⟨tr, sw, h, ho, hfills, hleft⟩ : ∃ tr sw,
      (machine market plainTokens).Run (UndisturbedOf (heldBy market · (.contract 8))) tr sw ∧
        sw.1.order 1 = some (begun 10 6 15000000) ∧ fillsOf 1 tr = [6] ∧
        paidIn tr 1 - paidOut tr 1 = 6 := ⟨_, _, h2, by rfl, by rfl, by rfl⟩
  have hiff := cancel_iff (o := begun 10 6 15000000) (e := byMaker) (plainTokens_custody.of _) h ho
    (by rfl) (plainTokens_pays _ _) (by rfl)
  refine ⟨tr, sw, h, ho, hleft, hiff.1.mpr ⟨.inr (by decide), fun _ => ?_⟩, ?_⟩
  · rw [hfills]
    decide
  · exact fun hs => hiff.2.2.mp hs (.inr (by decide))

/-- The last of three credits at a half costs nothing, so that its order stays open. -/
theorem cancel_stuck : ∃ tr sw,
    (machine market plainTokens).Run (UndisturbedOf (heldBy market · (.contract 8))) tr sw ∧
      CustodyOf market plainTokens (.contract 8) (heldBy market · (.contract 8)) ∧
      Pays market plainTokens (.contract 8) (heldBy market · (.contract 8)) sw.2 ∧
      sw.1.order 1 = some (begun 3 2 5000000) ∧
      execute plainTokens byMaker sw.1 sw.2 (.cancelOrder (.account 1) 1) =
        .error (.message "calculated cost is zero") ∧
      Stuck market plainTokens sw 1 := by
  have h0 := Machine.Run.init (m := machine market plainTokens)
    (G := UndisturbedOf (heldBy market · (.contract 8))) (s := opened)
    ⟨.account 0, 1000, .account 0, by rfl⟩
  have h1 := h0.call
    (l := signedBy 1 (.createBuyOrder (.account 1) (.contract 7) (.contract 8) 3 5000000))
    trivial (by rfl)
  have h2 := h1.call (l := signedBy 2 (.fillOrder (.account 2) 1 2)) trivial (by rfl)
  have hn : ¬ (begun 3 2 5000000).Refundable := by decide
  exact ⟨_, _, h2, plainTokens_custody.of _, plainTokens_pays _ _, by rfl, by rfl,
    stuck_of_not_refundable (book_run h2).1 (by rfl) hn⟩

end Sample

end WaterCredits.Market
