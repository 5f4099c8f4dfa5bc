import WaterCredits.Market.Rounding

/-! # The transfers of the marketplace

The token contracts see every payment as a transfer. Tokens that write down what
they are asked for tell which transfers a call makes for which order, and what
an order is paid, escrowed and brings is what these transfers add up to.
-/

namespace WaterCredits.Market

open Foundation Function

variable {contract : Address} {W : Type} {T : Tokens W} {e : Env contract} {s s' : State}
  {w w' : W} {id : UInt64} {o : Order} {taker maker : Address} {n payout fee : I128}
  {sw sw' : State × W} {tr : Trace (State × W) (Event contract W)}

structure Transfer where
  token : Address
  sender : Address
  recipient : Address
  amount : I128
  deriving DecidableEq

variable {l l' log : List Transfer} {p : Transfer → Bool}

/-- The same tokens, which also write down their transfers. -/
def Tokens.recording (T : Tokens W) : Tokens (W × List Transfer) where
  transfer token e sender recipient amount x := do
    let w ← T.transfer token e sender recipient amount x.1
    return (w, x.2 ++ [⟨token, sender, recipient, amount⟩])
  transferFrom token e spender sender recipient amount x := do
    let w ← T.transferFrom token e spender sender recipient amount x.1
    return (w, x.2 ++ [⟨token, sender, recipient, amount⟩])

/-- The transfers that an accepted call has written down. -/
def logged (x : Result (State × W × List Transfer)) : List Transfer :=
  match x with
  | .ok (_, _, log) => log
  | .error _ => []

def State.fillRecords (T : Tokens W) (e : Env contract) (taker : Address) :
    List (UInt64 × I128) → State → W → List (UInt64 × Transfer)
  | [], _, _ => []
  | (orderId, fillAmount) :: rest, s, w =>
    match s.internalFillOrder T.recording e taker orderId fillAmount (w, []) with
    | .ok (s', w', log) => log.map (Prod.mk orderId) ++ fillRecords T e taker rest s' w'
    | .error _ => []

def Call.subject (s : State) : Call → UInt64
  | .createSellOrder .. | .createBuyOrder .. => s.orderCount + 1
  | .fillOrder _ orderId _ | .cancelOrder _ orderId => orderId
  | _ => 0

/-- The transfers of an accepted call, each with the order that it is made for. -/
def Call.records (T : Tokens W) (e : Env contract) (s : State) (w : W) :
    Call → List (UInt64 × Transfer)
  | .batchFillOrders taker orderIds fillAmounts =>
      State.fillRecords T e taker (orderIds.zip fillAmounts) s w
  | c => (logged (execute T.recording e s (w, []) c)).map (Prod.mk (c.subject s))

def Event.records (T : Tokens W) (sw : State × W) :
    Event contract W → List (UInt64 × Transfer)
  | .call e c => c.records T e sw.1 sw.2
  | .outside _ => []

def Call.opens : Call → Bool
  | .createSellOrder .. | .createBuyOrder .. => true
  | _ => false

def Event.opens : Event contract W → Bool
  | .call _ c => c.opens
  | .outside _ => false

def forOrder (id : UInt64) (records : List (UInt64 × Transfer)) : List Transfer :=
  records.filterMap fun r => if r.1 = id then some r.2 else none

def moved (p : Transfer → Bool) (l : List Transfer) : ℤ := ((l.filter p).map (·.amount.val)).sum

namespace Order

/-- The contract pays out of what an order has in escrow. -/
def spends (contract : Address) (o : Order) (t : Transfer) : Bool :=
  decide (t.token = o.escrowToken ∧ t.sender = contract)

/-- The contract receives what an order needs in escrow. -/
def banks (contract : Address) (o : Order) (t : Transfer) : Bool :=
  decide (t.token = o.escrowToken ∧ t.recipient = contract)

/-- Somebody else pays the maker or the recipient of the fee. -/
def earns (contract feeRecipient : Address) (o : Order) (t : Transfer) : Bool :=
  decide (t.token = o.paymentToken ∧ t.sender ≠ contract ∧
    (t.recipient = o.maker ∨ t.recipient = feeRecipient))

end Order

/-- What the contract transfers in a run out of the escrow of an order. -/
def released (T : Tokens W) (id : UInt64) (o : Order)
    (tr : Trace (State × W) (Event contract W)) : ℤ :=
  (tr.map fun st => moved (o.spends contract) (forOrder id (st.label.records T st.before))).sum

def deposited (T : Tokens W) (id : UInt64) (o : Order)
    (tr : Trace (State × W) (Event contract W)) : ℤ :=
  (tr.map fun st => if st.label.opens = true then
    moved (o.banks contract) (forOrder id (st.label.records T st.before)) else 0).sum

/-- What the fills of an order in a run bring to its maker and to the recipient of the fee. -/
def takings (T : Tokens W) (id : UInt64) (o : Order)
    (tr : Trace (State × W) (Event contract W)) : ℤ :=
  (tr.map fun st => if st.label.opens = true then 0 else
    moved (o.earns contract st.before.1.feeRecipient)
      (forOrder id (st.label.records T st.before))).sum

@[simp] theorem moved_nil : moved p [] = 0 := rfl

@[simp] theorem moved_append : moved p (l ++ l') = moved p l + moved p l' := by
  simp [moved]

theorem moved_cons (t : Transfer) :
    moved p (t :: l) = (if p t = true then t.amount.val else 0) + moved p l := by
  cases h : p t <;> simp [moved, h]

@[simp] theorem forOrder_nil : forOrder id [] = [] := rfl

@[simp] theorem forOrder_append (r r' : List (UInt64 × Transfer)) :
    forOrder id (r ++ r') = forOrder id r ++ forOrder id r' := List.filterMap_append

@[simp] theorem forOrder_self (id : UInt64) (l : List Transfer) :
    forOrder id (l.map (Prod.mk id)) = l := by
  simp [forOrder, List.filterMap_map]

theorem forOrder_of_ne {i : UInt64} (h : i ≠ id) (l : List Transfer) :
    forOrder id (l.map (Prod.mk i)) = [] := by
  simp [forOrder, List.filterMap_map, h]

section Recording

variable {token sender recipient spender : Address} {amount : I128} {x : Env token}

theorem transfer_recorded (h : T.transfer token x sender recipient amount w = .ok w')
    (log : List Transfer) : T.recording.transfer token x sender recipient amount (w, log) =
      .ok (w', log ++ [⟨token, sender, recipient, amount⟩]) := by
  simp [Tokens.recording, h]

theorem transferFrom_recorded
    (h : T.transferFrom token x spender sender recipient amount w = .ok w') (log : List Transfer) :
    T.recording.transferFrom token x spender sender recipient amount (w, log) =
      .ok (w', log ++ [⟨token, sender, recipient, amount⟩]) := by
  simp [Tokens.recording, h]

def Transfer.due (t : Transfer) : List Transfer := if 0 < t.amount then [t] else []

theorem moved_due {t : Transfer} (h0 : 0 ≤ t.amount.val) :
    moved p t.due = if p t = true then t.amount.val else 0 := by
  unfold Transfer.due
  split
  · rw [moved_cons, moved_nil, add_zero]
  · rename_i hn
    have hzero : t.amount.val = 0 := le_antisymm (not_lt.mp hn) h0
    simp [hzero]

theorem ifPositive_recorded {t : Transfer} {pay : W → Result W}
    {record : W × List Transfer → Result (W × List Transfer)}
    (hpay : ∀ {w w'}, pay w = .ok w' → ∀ log, record (w, log) = .ok (w', log ++ [t]))
    (h : ifPositive t.amount pay w = .ok w') (log : List Transfer) :
    ifPositive t.amount record (w, log) = .ok (w', log ++ t.due) := by
  unfold ifPositive Transfer.due at *
  split at h
  · rename_i h0
    rw [if_pos h0, if_pos h0]
    exact hpay h log
  · rename_i h0
    rw [if_neg h0, if_neg h0, pure_eq_ok.mp h, List.append_nil]
    rfl

def Order.settlement (contract feeRecipient taker : Address) (o : Order) (n payout fee : I128) :
    List Transfer :=
  match o.side with
  | .sell => Transfer.due ⟨o.paymentToken, taker, o.maker, payout⟩ ++
      Transfer.due ⟨o.paymentToken, taker, feeRecipient, fee⟩ ++
      [⟨o.creditToken, contract, taker, n⟩]
  | .buy => [⟨o.creditToken, taker, o.maker, n⟩] ++
      Transfer.due ⟨o.paymentToken, contract, taker, payout⟩ ++
      Transfer.due ⟨o.paymentToken, contract, feeRecipient, fee⟩

theorem settle_recorded (h : s.settle T e taker o n payout fee w = .ok w') (log : List Transfer) :
    s.settle T.recording e taker o n payout fee (w, log) =
      .ok (w', log ++ o.settlement contract s.feeRecipient taker n payout fee) := by
  unfold State.settle at *
  unfold Order.settlement
  cases hside : o.side with
  | sell =>
    simp only [hside, bind_eq_ok] at h ⊢
    obtain ⟨w₁, h1, w₂, h2, h3⟩ := h
    have hpayout := ifPositive_recorded (t := ⟨o.paymentToken, taker, o.maker, payout⟩)
      transferFrom_recorded h1 log
    refine ⟨_, hpayout, _, ifPositive_recorded
      (t := ⟨o.paymentToken, taker, s.feeRecipient, fee⟩) transferFrom_recorded h2 _, ?_⟩
    rw [transfer_recorded h3, List.append_assoc, List.append_assoc, List.append_assoc]
  | buy =>
    simp only [hside, bind_eq_ok] at h ⊢
    obtain ⟨w₁, h1, w₂, h2, h3⟩ := h
    refine ⟨_, transferFrom_recorded h1 log, _, ifPositive_recorded
      (t := ⟨o.paymentToken, contract, taker, payout⟩) transfer_recorded h2 _, ?_⟩
    rw [ifPositive_recorded (t := ⟨o.paymentToken, contract, s.feeRecipient, fee⟩)
      transfer_recorded h3, List.append_assoc, List.append_assoc, List.append_assoc]

end Recording

theorem internalFillOrder_recorded (h : s.internalFillOrder T e taker id n w = .ok (s', w')) :
    ∃ o payout fee, s.order id = some o ∧ s.quote o n = .ok (payout, fee) ∧ ∀ log,
      s.internalFillOrder T.recording e taker id n (w, log) =
        .ok (s', w', log ++ o.settlement contract s.feeRecipient taker n payout fee) := by
  simp only [State.internalFillOrder, bind_eq_ok, ensure_eq_ok, orPanic_eq_ok] at h ⊢
  obtain ⟨_, h0, o, ho, _, hlive, remaining, hr, _, hle, ⟨payout, fee⟩, hq, w₁, hs, filled, hf,
    h⟩ := h
  refine ⟨o, payout, fee, ho, hq, fun log => ?_⟩
  refine ⟨(), h0, o, ho, (), hlive, remaining, hr, (), hle, (payout, fee), hq, _,
    settle_recorded hs log, filled, hf, ?_⟩
  split at h <;> cases h <;> rename_i hfull
  · exact if_pos hfull
  · exact if_neg hfull

theorem createOrder_recorded {side : OrderSide} {creditToken paymentToken : Address}
    {amount price : I128} {newId : UInt64}
    (h : s.createOrder T e side maker creditToken paymentToken amount price w =
      .ok (newId, s', w')) :
    ∃ o totalCost, s'.order = update s.order (s.orderCount + 1) (some o) ∧
      calculateCost amount price = .ok totalCost ∧ ∀ log,
      s.createOrder T.recording e side maker creditToken paymentToken amount price (w, log) =
        .ok (newId, s', w', log ++
          [⟨o.escrowToken, maker, contract, side.deposit amount totalCost⟩]) := by
  cases side with
  | sell =>
    simp only [State.createOrder, bind_eq_ok, ensure_eq_ok] at h ⊢
    obtain ⟨x, hp, y, hauth, _, h0, _, hprice, totalCost, hcost, w₁, hw, _, hcount, s₁, hs, h⟩ := h
    cases h
    refine ⟨_, totalCost, congrArg State.order (State.addMakerOrder_eq_ok.mp hs).2.symm, hcost,
      fun log => ?_⟩
    exact ⟨x, hp, y, hauth, (), h0, (), hprice, totalCost, hcost, _, transferFrom_recorded hw log,
      (), hcount, s', hs, rfl⟩
  | buy =>
    simp only [State.createOrder, bind_eq_ok, ensure_eq_ok] at h ⊢
    obtain ⟨x, hp, y, hauth, _, h0, _, hprice, totalCost, hcost, w₁, hw, _, hcount, s₁, hs, h⟩ := h
    cases h
    refine ⟨_, totalCost, congrArg State.order (State.addMakerOrder_eq_ok.mp hs).2.symm, hcost,
      fun log => ?_⟩
    exact ⟨x, hp, y, hauth, (), h0, (), hprice, totalCost, hcost, _, transferFrom_recorded hw log,
      (), hcount, s', hs, rfl⟩

theorem cancelOrder_recorded (h : s.cancelOrder T e maker id w = .ok (s', w')) :
    ∃ o refund, s.order id = some o ∧ refund.val = o.cover o.remaining ∧ ∀ log,
      s.cancelOrder T.recording e maker id (w, log) =
        .ok (s', w', log ++ Transfer.due ⟨o.escrowToken, contract, maker, refund⟩) := by
  simp only [State.cancelOrder, bind_eq_ok, ensure_eq_ok, orPanic_eq_ok] at h
  obtain ⟨x, hauth, o, ho, _, hm, _, hlive, remaining, hr, h⟩ := h
  have hrest : o.remaining = remaining.val := (I128.checkedSub_eq_some.mp hr).symm
  unfold Order.cover Order.escrowToken
  cases hside : o.side with
  | sell =>
    simp only [hside, bind_eq_ok] at h
    obtain ⟨w₁, hw, h⟩ := h
    cases h
    refine ⟨o, remaining, ho, by simp [hside, hrest], fun log => ?_⟩
    have hpaid := ifPositive_recorded (t := ⟨o.creditToken, contract, maker, remaining⟩)
      transfer_recorded hw log
    simp only [State.cancelOrder, bind_eq_ok, ensure_eq_ok, orPanic_eq_ok]
    refine ⟨x, hauth, o, ho, (), hm, (), hlive, remaining, hr, ?_⟩
    simp only [hside, bind_eq_ok]
    exact ⟨_, hpaid, rfl⟩
  | buy =>
    simp only [hside, bind_eq_ok] at h
    obtain ⟨cost, hcost, w₁, hw, h⟩ := h
    cases h
    obtain ⟨-, -, hval⟩ := calculateCost_cases hcost
    refine ⟨o, cost, ho, by simp [hside, hval, hrest, Order.costOf], fun log => ?_⟩
    have hpaid := ifPositive_recorded (t := ⟨o.paymentToken, contract, maker, cost⟩)
      transfer_recorded hw log
    simp only [State.cancelOrder, bind_eq_ok, ensure_eq_ok, orPanic_eq_ok]
    refine ⟨x, hauth, o, ho, (), hm, (), hlive, remaining, hr, ?_⟩
    simp only [hside, bind_eq_ok]
    exact ⟨cost, hcost, _, hpaid, rfl⟩

section Settlement

variable (ht : taker ≠ contract) (hb : s.feeBps ≤ MAX_FEE_BPS)
  (hq : s.quote o n = .ok (payout, fee))

include ht hb hq

theorem spends_settlement :
    moved (o.spends contract) (o.settlement contract s.feeRecipient taker n payout fee) =
      o.cover n.val := by
  obtain ⟨hp0, hf0, hsum⟩ := quote_cases hb hq
  unfold Order.settlement Order.spends Order.escrowToken Order.cover
  cases hside : o.side with
  | sell => simp [moved_due, moved_cons, hp0, hf0, ht]
  | buy => simp [moved_due, moved_cons, hp0, hf0, ht, hsum]

theorem earns_settlement (hside : o.side = .sell) :
    moved (o.earns contract s.feeRecipient)
        (o.settlement contract s.feeRecipient taker n payout fee) = o.costOf n.val := by
  obtain ⟨hp0, hf0, hsum⟩ := quote_cases hb hq
  simp [Order.settlement, Order.earns, hside, moved_due, moved_cons, hp0, hf0, ht, hsum]

end Settlement

section Batch

variable {fills : List (UInt64 × I128)} {orderId : UInt64} {s₁ : State} {w₁ : W}

theorem fillRecords_cons {rest : List (UInt64 × I128)} {l : List Transfer}
    (h : s.internalFillOrder T.recording e taker orderId n (w, []) = .ok (s₁, w₁, l)) :
    State.fillRecords T e taker ((orderId, n) :: rest) s w =
      l.map (Prod.mk orderId) ++ State.fillRecords T e taker rest s₁ w₁ := by
  simp [State.fillRecords, h]

theorem fillLoop_recorded (h : State.fillLoop T e taker fills s w = .ok (s', w'))
    (log : List Transfer) : State.fillLoop T.recording e taker fills s (w, log) =
      .ok (s', w', log ++ (State.fillRecords T e taker fills s w).map Prod.snd) := by
  induction fills generalizing s w log with
  | nil =>
    cases h
    exact congrArg (fun l => Except.ok (s', w', l)) (List.append_nil log).symm
  | cons p rest ih =>
    obtain ⟨orderId, n⟩ := p
    simp only [State.fillLoop, bind_eq_ok] at h ⊢
    obtain ⟨⟨s₁, w₁⟩, h1, h2⟩ := h
    obtain ⟨o, payout, fee, -, -, hrec⟩ := internalFillOrder_recorded h1
    refine ⟨_, hrec log, ?_⟩
    have hrest := ih h2 (log ++ o.settlement contract s.feeRecipient taker n payout fee)
    have hfirst := hrec []
    rw [List.nil_append] at hfirst
    rw [hrest, fillRecords_cons hfirst]
    simp [Function.comp_def]

theorem internalFillOrder_feeRecipient
    (h : s.internalFillOrder T e taker id n w = .ok (s', w')) :
    s'.feeRecipient = s.feeRecipient := by
  simp only [State.internalFillOrder, bind_eq_ok] at h
  obtain ⟨_, -, o, -, _, -, _, -, _, -, ⟨payout, fee⟩, -, w₁, -, filled, -, h⟩ := h
  split at h <;> cases h <;> rfl

theorem settlement_totals (ht : taker ≠ contract) (hr : s.Ready) {o₁ : Order}
    (ho₁ : s.order orderId = some o₁) (hq : s.quote o₁ n = .ok (payout, fee))
    (ho : s.order id = some o) :
    moved (o.spends contract) (forOrder id
        ((o₁.settlement contract s.feeRecipient taker n payout fee).map (Prod.mk orderId))) =
        entry orderId (s.fillPayment orderId n) id ∧
      (o.side = .sell → moved (o.earns contract s.feeRecipient) (forOrder id
        ((o₁.settlement contract s.feeRecipient taker n payout fee).map (Prod.mk orderId))) =
        entry orderId (s.proceeds orderId n) id) := by
  by_cases hid : orderId = id
  · subst hid
    cases ho₁.symm.trans ho
    rw [forOrder_self, fillPayment_eq hr.fee ho hq, proceeds_eq hr.fee ho hq]
    refine ⟨(spends_settlement ht hr.fee hq).trans (if_pos rfl).symm, fun hside => ?_⟩
    rw [earns_settlement ht hr.fee hq hside, if_pos hside]
    exact (if_pos rfl).symm
  · rw [forOrder_of_ne hid]
    exact ⟨(if_neg hid).symm, fun _ => (if_neg hid).symm⟩

theorem fillRecords_totals (ht : taker ≠ contract) (hr : s.Ready)
    (h : State.fillLoop T e taker fills s w = .ok (s', w')) (ho : s.order id = some o) :
    moved (o.spends contract) (forOrder id (State.fillRecords T e taker fills s w)) =
        (fills.map fun p => entry p.1 (s.fillPayment p.1 p.2)).sum id ∧
      (o.side = .sell →
        moved (o.earns contract s.feeRecipient)
            (forOrder id (State.fillRecords T e taker fills s w)) =
          (fills.map fun p => entry p.1 (s.proceeds p.1 p.2)).sum id) := by
  induction fills generalizing s w o with
  | nil => exact ⟨rfl, fun _ => rfl⟩
  | cons p rest ih =>
    obtain ⟨orderId, n⟩ := p
    simp only [State.fillLoop, bind_eq_ok] at h
    obtain ⟨⟨s₁, w₁⟩, h1, h2⟩ := h
    obtain ⟨o₁, payout, fee, ho₁, hq, hrec⟩ := internalFillOrder_recorded h1
    have hfirst := hrec []
    rw [List.nil_append] at hfirst
    -- A fill does not change the terms of the order.
    have hrest : moved (o.spends contract) (forOrder id (State.fillRecords T e taker rest s₁ w₁)) =
          (rest.map fun p => entry p.1 (s₁.fillPayment p.1 p.2)).sum id ∧
        (o.side = .sell → moved (o.earns contract s₁.feeRecipient)
            (forOrder id (State.fillRecords T e taker rest s₁ w₁)) =
          (rest.map fun p => entry p.1 (s₁.proceeds p.1 p.2)).sum id) := by
      rcases (internalFillOrder_order hr h1).2 id with hi | ⟨o₂, f, ho₂, hi⟩
      · exact ih (internalFillOrder_ready hr h1) h2 (hi.trans ho)
      · cases ho₂.symm.trans ho
        have hfilled := ih (internalFillOrder_ready hr h1) h2 hi
        exact hfilled
    rw [fillPayment_stable hr h1, proceeds_stable hr h1, internalFillOrder_feeRecipient h1] at hrest
    obtain ⟨hspends, hearns⟩ := settlement_totals ht hr ho₁ hq ho
    rw [fillRecords_cons hfirst, forOrder_append, moved_append, moved_append]
    simp only [List.map_cons, List.sum_cons, Pi.add_apply]
    exact ⟨by rw [hspends, hrest.1], fun hside => by rw [hearns hside, hrest.2 hside]⟩

theorem fillRecords_absent (hr : s.Ready) (h : State.fillLoop T e taker fills s w = .ok (s', w'))
    (ho : s.order id = none) : forOrder id (State.fillRecords T e taker fills s w) = [] := by
  induction fills generalizing s w with
  | nil => rfl
  | cons p rest ih =>
    obtain ⟨orderId, n⟩ := p
    simp only [State.fillLoop, bind_eq_ok] at h
    obtain ⟨⟨s₁, w₁⟩, h1, h2⟩ := h
    obtain ⟨o₁, payout, fee, ho₁, -, hrec⟩ := internalFillOrder_recorded h1
    have hfirst := hrec []
    rw [List.nil_append] at hfirst
    have hid : orderId ≠ id := by
      rintro rfl
      cases ho₁.symm.trans ho
    have hnone : s₁.order id = none := by
      rcases (internalFillOrder_order hr h1).2 id with hi | ⟨o₂, f, ho₂, -⟩
      · exact hi.trans ho
      · cases ho₂.symm.trans ho
    rw [fillRecords_cons hfirst, forOrder_append, forOrder_of_ne hid, List.nil_append]
    exact ih (internalFillOrder_ready hr h1) h2 hnone

theorem fillLoop_absent (hr : s.Ready) (h : State.fillLoop T e taker fills s w = .ok (s', w'))
    (ho : s.order id = none) : s'.order id = none := by
  refine (fillLoop_invariant (I := fun s₁ _ => s₁.Ready ∧ s₁.order id = none) ?_ ⟨hr, ho⟩ h).2
  rintro s₁ w₁ orderId n s₂ w₂ ⟨hr₁, hnone⟩ h1
  refine ⟨internalFillOrder_ready hr₁ h1, ?_⟩
  rcases (internalFillOrder_order hr₁ h1).2 id with hi | ⟨o₁, f, ho₁, -⟩
  · exact hi.trans hnone
  · cases ho₁.symm.trans hnone

end Batch

section Calls

variable {c : Call}

def Call.batch : Call → Bool
  | .batchFillOrders .. => true
  | _ => false

theorem records_eq (hc : c.batch = false)
    (h : execute T.recording e s (w, []) c = .ok (s', w', log)) :
    c.records T e s w = log.map (Prod.mk (c.subject s)) := by
  cases c
  case batchFillOrders => cases hc
  all_goals simp only [Call.records, h, logged]

theorem administers_recorded (hc : c.administers = true) (h : execute T e s w c = .ok (s', w')) :
    execute T.recording e s (w, []) c = .ok (s', w', []) := by
  cases c <;> simp only [Call.administers, Bool.false_eq_true] at hc <;>
    simp only [execute, within_eq_ok] at h ⊢ <;> exact ⟨h.1, by rw [h.2]⟩

theorem fillOrder_recorded {orderId : UInt64}
    (h : s.fillOrder T e taker orderId n w = .ok (s', w')) :
    execute T.recording e s (w, []) (.fillOrder taker orderId n) =
      .ok (s', w', (State.fillRecords T e taker [(orderId, n)] s w).map Prod.snd) := by
  simp only [execute, State.fillOrder, bind_eq_ok] at h ⊢
  obtain ⟨x, hp, y, hauth, h⟩ := h
  obtain ⟨o, payout, fee, -, -, hrec⟩ := internalFillOrder_recorded h
  refine ⟨x, hp, y, hauth, ?_⟩
  rw [fillRecords_cons (hrec [])]
  simp [hrec, State.fillRecords, Function.comp_def]

theorem execute_recorded (h : execute T e s w c = .ok (s', w')) :
    execute T.recording e s (w, []) c = .ok (s', w', (c.records T e s w).map Prod.snd) := by
  have hrecords {log : List Transfer} (hc : c.batch = false)
      (hx : execute T.recording e s (w, []) c = .ok (s', w', log)) :
      execute T.recording e s (w, []) c = .ok (s', w', (c.records T e s w).map Prod.snd) := by
    rw [records_eq hc hx, hx]
    simp [Function.comp_def]
  cases c with
  | initialise => simp [execute, Market.initialise] at h
  | setAdmin | setFee | pause | unpause => exact hrecords rfl (administers_recorded rfl h)
  | createSellOrder | createBuyOrder =>
    obtain ⟨newId, h⟩ := discard_eq_ok.mp h
    obtain ⟨o, totalCost, -, -, hrec⟩ := createOrder_recorded h
    exact hrecords rfl (discard_eq_ok.mpr ⟨newId, hrec []⟩)
  | fillOrder => exact hrecords rfl (fillOrder_recorded h)
  | batchFillOrders taker orderIds fillAmounts =>
    simp only [execute, State.batchFillOrders, bind_eq_ok] at h ⊢
    obtain ⟨x, hp, y, hauth, z, hlen, u, hne, h⟩ := h
    exact ⟨x, hp, y, hauth, z, hlen, u, hne, fillLoop_recorded h []⟩
  | cancelOrder =>
    obtain ⟨o, refund, -, -, hrec⟩ := cancelOrder_recorded h
    exact hrecords rfl (hrec [])

theorem fillOrder_records {orderId : UInt64}
    (h : s.fillOrder T e taker orderId n w = .ok (s', w')) :
    (Call.fillOrder taker orderId n).records T e s w =
      State.fillRecords T e taker [(orderId, n)] s w := by
  rw [records_eq rfl (fillOrder_recorded h)]
  simp only [State.fillOrder, bind_eq_ok] at h
  obtain ⟨_, -, _, -, h⟩ := h
  obtain ⟨o, payout, fee, -, -, hrec⟩ := internalFillOrder_recorded h
  rw [fillRecords_cons (hrec [])]
  simp [Call.subject, State.fillRecords, Function.comp_def]

/-- The transfers of an accepted call for an order agree with what it pays, escrows and brings. -/
structure Tallied (T : Tokens W) (e : Env contract) (s : State) (w : W) (c : Call) (id : UInt64)
    (o : Order) : Prop where
  released : moved (o.spends contract) (forOrder id (c.records T e s w)) = c.paid s id
  deposited : (if c.opens = true then
    moved (o.banks contract) (forOrder id (c.records T e s w)) else 0) = c.escrowed s id
  takings : o.side = .sell → (if c.opens = true then 0 else
    moved (o.earns contract s.feeRecipient) (forOrder id (c.records T e s w))) = c.received s id

theorem Tallied.idle (hr : forOrder id (c.records T e s w) = []) (hp : c.paid s id = 0)
    (he : c.escrowed s id = 0) (hc : c.received s id = 0) : Tallied T e s w c id o := by
  constructor
  · rw [hr, hp, moved_nil]
  · rw [hr, he, moved_nil, ite_self]
  · rw [hr, hc, moved_nil, ite_self]
    exact fun _ => rfl

theorem fills_tallied {fills : List (UInt64 × I128)} (hb : Book s) (ht : e.auth taker = true)
    (h : State.fillLoop T e taker fills s w = .ok (s', w'))
    (hc : c.records T e s w = State.fillRecords T e taker fills s w) (hopens : c.opens = false)
    (hp : c.paid s = (fills.map fun p => entry p.1 (s.fillPayment p.1 p.2)).sum)
    (he : c.escrowed s = 0)
    (hg : c.received s = (fills.map fun p => entry p.1 (s.proceeds p.1 p.2)).sum) :
    (s'.order id = none → forOrder id (c.records T e s w) = []) ∧
      ∀ o, s'.order id = some o → Tallied T e s w c id o := by
  cases ho : s.order id with
  | none =>
    refine ⟨fun _ => hc ▸ fillRecords_absent hb.ready h ho, fun o ho' => ?_⟩
    cases (fillLoop_absent hb.ready h ho).symm.trans ho'
  | some o =>
    obtain ⟨f, status, hafter, -⟩ := (fillLoop_turns hb h).advances id o ho
    refine ⟨fun hn => absurd (hafter.symm.trans hn) (by simp), fun o' ho' => ?_⟩
    cases hafter.symm.trans ho'
    obtain ⟨hspends, hearns⟩ := fillRecords_totals (e.ne_self ht) hb.ready h ho
    constructor
    · rw [hc, hp]
      exact hspends
    · rw [hopens, he]
      rfl
    · intro hside
      rw [hopens, hc, hg]
      exact hearns hside

theorem createOrder_tallied {side : OrderSide} {creditToken paymentToken : Address}
    {amount price : I128} {newId : UInt64}
    (h : s.createOrder T e side maker creditToken paymentToken amount price w =
      .ok (newId, s', w'))
    (hc : execute T.recording e s (w, []) c = discard
      (s.createOrder T.recording e side maker creditToken paymentToken amount price (w, [])))
    (hbatch : c.batch = false)
    (hsubject : c.subject s = s.orderCount + 1) (hopens : c.opens = true) (hp : c.paid s = 0)
    (he : ∀ totalCost, calculateCost amount price = .ok totalCost →
      c.escrowed s = entry (s.orderCount + 1) (side.deposit amount totalCost).val)
    (hg : c.received s = 0) :
    (s'.order id = none → forOrder id (c.records T e s w) = []) ∧
      ∀ o, s'.order id = some o → Tallied T e s w c id o := by
  obtain ⟨o, totalCost, hs, hcost, hrec⟩ := createOrder_recorded h
  have hne : maker ≠ contract := e.ne_self (createOrder_cases h).1
  have hrecords := records_eq hbatch (hc.trans (discard_eq_ok.mpr ⟨newId, hrec []⟩))
  rw [hsubject] at hrecords
  by_cases hid : s.orderCount + 1 = id
  · subst hid
    rw [hs, update_self]
    refine ⟨fun hn => absurd hn (by simp), fun o' ho' => ?_⟩
    cases ho'
    constructor
    · rw [hrecords, forOrder_self, hp]
      simp [moved_cons, Order.spends, hne]
    · rw [hrecords, forOrder_self, he totalCost hcost, if_pos hopens]
      simp [moved_cons, Order.banks, entry]
    · rw [if_pos hopens, hg]
      exact fun _ => rfl
  · have hnone : forOrder id (c.records T e s w) = [] := by
      rw [hrecords]
      exact forOrder_of_ne hid _
    have hzero : c.escrowed s id = 0 := by
      rw [he totalCost hcost]
      exact if_neg hid
    exact ⟨fun _ => hnone, fun o _ => .idle hnone (by rw [hp]; rfl) hzero (by rw [hg]; rfl)⟩

theorem cancelOrder_tallied {orderId : UInt64} (hr : s.Ready)
    (h : s.cancelOrder T e maker orderId w = .ok (s', w')) :
    (s'.order id = none → forOrder id ((Call.cancelOrder maker orderId).records T e s w) = []) ∧
      ∀ o, s'.order id = some o → Tallied T e s w (.cancelOrder maker orderId) id o := by
  obtain ⟨o, refund, ho, hrefund, hrec⟩ := cancelOrder_recorded h
  obtain ⟨o₁, -, ho₁, hlive, -, -, -, -, -, -, hs, -⟩ := cancelOrder_cases h
  cases ho₁.symm.trans ho
  have hv := hr.valid orderId o ho
  rw [hv.key] at hs
  have hrecords := records_eq (c := .cancelOrder maker orderId) rfl (hrec [])
  by_cases hid : orderId = id
  · subst hid
    have h0 : 0 ≤ refund.val := by
      have hnonneg := hv.reserve_nonneg
      rwa [Order.reserve, if_pos hlive, ← hrefund] at hnonneg
    have hpaid : s.refund orderId = refund.val := by
      rw [State.refund, ho, hrefund]
      unfold Order.cover
      cases hside : o.side <;> simp [hside]
    rw [hs, update_self]
    refine ⟨fun hn => absurd hn (by simp), fun o' ho' => ?_⟩
    cases ho'
    constructor
    · rw [hrecords, Call.subject, forOrder_self, List.nil_append, moved_due h0]
      simp [Order.spends, Order.cancel, Order.escrowToken, Call.paid, entry, hpaid]
    · rfl
    · intro
      rw [hrecords, Call.subject, forOrder_self, List.nil_append, moved_due h0]
      simp [Order.earns, Call.opens, Call.received]
  · have hnone := (congrArg (forOrder id) hrecords).trans (forOrder_of_ne hid _)
    exact ⟨fun _ => hnone, fun o _ => .idle hnone (if_neg hid) rfl rfl⟩

theorem execute_tallied (hb : Book s) (h : execute T e s w c = .ok (s', w')) :
    (s'.order id = none → forOrder id (c.records T e s w) = []) ∧
      ∀ o, s'.order id = some o → Tallied T e s w c id o := by
  cases c with
  | initialise => simp [execute, Market.initialise] at h
  | setAdmin | setFee | pause | unpause =>
    have hnone := congrArg (forOrder id) (records_eq rfl (administers_recorded rfl h))
    exact ⟨fun _ => hnone, fun o _ => .idle hnone rfl rfl rfl⟩
  | createSellOrder =>
    obtain ⟨newId, h⟩ := discard_eq_ok.mp h
    exact createOrder_tallied h rfl rfl rfl rfl rfl (fun _ _ => rfl) rfl
  | createBuyOrder =>
    obtain ⟨newId, h⟩ := discard_eq_ok.mp h
    refine createOrder_tallied h rfl rfl rfl rfl rfl (fun totalCost hcost => ?_) rfl
    simp only [Call.escrowed, hcost]
    rfl
  | fillOrder taker orderId n =>
    have hrecords := fillOrder_records h
    simp only [execute, State.fillOrder, bind_eq_ok, Env.requireAuth_eq_ok] at h
    obtain ⟨_, -, _, hauth, h⟩ := h
    have hloop : State.fillLoop T e taker [(orderId, n)] s w = .ok (s', w') := by
      simp [State.fillLoop, h]
    exact fills_tallied hb hauth hloop hrecords rfl (add_zero _).symm rfl (add_zero _).symm
  | batchFillOrders taker orderIds fillAmounts =>
    simp only [execute, State.batchFillOrders, bind_eq_ok, Env.requireAuth_eq_ok] at h
    obtain ⟨_, -, _, hauth, _, -, _, -, h⟩ := h
    exact fills_tallied hb hauth h rfl rfl rfl rfl rfl
  | cancelOrder => exact cancelOrder_tallied hb.ready h

end Calls

/-- The transfers of a run for an order agree with its books, and there are none before it. -/
structure Booked (T : Tokens W) (id : UInt64) (tr : Trace (State × W) (Event contract W))
    (sw : State × W) : Prop where
  absent : sw.1.order id = none → ∀ o,
    released T id o tr = 0 ∧ deposited T id o tr = 0 ∧ takings T id o tr = 0
  stored : ∀ o, sw.1.order id = some o → released T id o tr = paidOut tr id ∧
    deposited T id o tr = paidIn tr id ∧ (o.side = .sell → takings T id o tr = received tr id)

theorem Booked.step {c : Call} (hk : Booked T id tr (s, w)) (hb : Book s)
    (ha : s.order id = none → account id tr = .zero)
    (h : execute T e s w c = .ok (s', w')) :
    Booked T id (⟨(s, w), .call e c, (s', w')⟩ :: tr) (s', w') := by
  obtain ⟨hnone, hsome⟩ : (s'.order id = none → forOrder id (c.records T e s w) = []) ∧
      ∀ o, s'.order id = some o → Tallied T e s w c id o := execute_tallied hb h
  have hadvances := (execute_turns hb h).advances
  constructor
  · intro hn o
    have hbefore : s.order id = none := by
      cases ho : s.order id with
      | none => rfl
      | some o =>
        obtain ⟨f, status, ho', -⟩ := hadvances id o ho
        cases hn.symm.trans ho'
    obtain ⟨h1, h2, h3⟩ := hk.absent hbefore o
    simp only [released, deposited, takings, List.map_cons, List.sum_cons, Event.records, hnone hn,
      moved_nil, ite_self, zero_add] at h1 h2 h3 ⊢
    exact ⟨h1, h2, h3⟩
  · intro o' ho'
    obtain ⟨hreleased, hdeposited, htakings⟩ := hsome o' ho'
    have hbooks : released T id o' tr = paidOut tr id ∧ deposited T id o' tr = paidIn tr id ∧
        (o'.side = .sell → takings T id o' tr = received tr id) := by
      cases ho : s.order id with
      | none =>
        obtain ⟨h1, h2, h3⟩ := hk.absent ho o'
        have hzero := ha ho
        exact ⟨h1.trans (congrArg Account.paid hzero).symm,
          h2.trans (congrArg Account.escrowed hzero).symm,
          fun _ => h3.trans (congrArg Account.received hzero).symm⟩
      | some o =>
        obtain ⟨f, status, hafter, -⟩ := hadvances id o ho
        cases hafter.symm.trans ho'
        exact hk.stored o ho
    obtain ⟨h1, h2, h3⟩ := hbooks
    exact ⟨congrArg₂ (· + ·) hreleased h1, congrArg₂ (· + ·) hdeposited h2,
      fun hside => congrArg₂ (· + ·) (htakings hside) (h3 hside)⟩

theorem booked_run {G : Guard (State × W) (Event contract W)}
    (h : (machine contract T).Run G tr sw) : Booked T id tr sw := by
  refine h.invariant (I := fun tr sw => Booked T id tr sw) ?_ ?_
  · rintro sw ⟨admin, feeBps, feeRecipient, hs⟩
    rw [initialise_eq_ok] at hs
    exact ⟨fun _ _ => ⟨rfl, rfl, rfl⟩, fun _ _ => ⟨rfl, rfl, fun _ => rfl⟩⟩
  · rintro tr ⟨s, w⟩ ev ⟨s', w'⟩ hr hk - hs
    cases ev with
    | call e c => exact hk.step (book_run hr).1 (kept_run hr).absent hs
    | outside w =>
      cases hs
      constructor
      · intro hn o
        obtain ⟨h1, h2, h3⟩ := hk.absent hn o
        exact ⟨congrArg (0 + ·) h1, congrArg (0 + ·) h2, congrArg (0 + ·) h3⟩
      · intro o ho
        obtain ⟨h1, h2, h3⟩ := hk.stored o ho
        exact ⟨congrArg (0 + ·) h1, congrArg (0 + ·) h2, fun hside => congrArg (0 + ·) (h3 hside)⟩

/--
The records of a run are all transfers that its calls make. Those for a finished
buy order release exactly its escrow, and those for a filled sell order bring
exactly the cost of its amount, when its fills are even, and not otherwise.
-/
theorem escrow_released_iff (h : (machine contract T).Run Machine.anyCall tr sw)
    (ho : sw.1.order id = some o) :
    (∀ st ∈ tr, ∀ e c, st.label = .call e c →
        execute T.recording e st.before.1 (st.before.2, []) c =
          .ok (st.after.1, st.after.2,
            (c.records T e st.before.1 st.before.2).map Prod.snd)) ∧
      (o.side = .buy → o.status = .filled ∨ o.status = .cancelled →
        (released T id o tr = deposited T id o tr ↔ o.Even (fillsOf id tr))) ∧
      (o.side = .sell → o.status = .filled →
        ∃ cost, calculateCost o.amount o.pricePerCredit = .ok cost ∧
          (takings T id o tr = cost.val ↔ o.Even (fillsOf id tr))) := by
  have hp := (book_run h).1.proper id o ho
  have hk : Settled o (account id tr) := (kept_run h).stored o ho
  obtain ⟨hreleased, hdeposited, htakings⟩ := (booked_run h).stored o ho
  refine ⟨?_, ?_, ?_⟩
  · rintro ⟨⟨s, w⟩, ev, ⟨s', w'⟩⟩ hst e c rfl
    obtain ⟨_, -, -, hs⟩ := h.mem _ hst
    exact execute_recorded hs
  · intro hb hs
    have hpaid : paidOut tr id = _ := hk.paid_buy hp hb hs
    have hesc : paidIn tr id = o.costOf o.amount.val := by
      have hcover : paidIn tr id = o.cover o.amount.val := hk.escrowed
      simpa [Order.cover, hb] using hcover
    rw [hreleased, hdeposited, hpaid, hesc]
    exact Order.costs_eq_iff
  · intro hb hs
    obtain ⟨cost, hcost⟩ := hp.priced
    obtain ⟨-, -, hval⟩ := calculateCost_cases hcost
    have hrec : received tr id = _ := hk.received_sell hp hb hs
    refine ⟨cost, hcost, ?_⟩
    rw [htakings hb, hrec, show cost.val = o.costOf o.amount.val from hval]
    exact Order.costs_eq_iff

section Sample

/-- A fill of six credits at one and a half, and the rest is cancelled. -/
theorem escrow_released_iff_even : ∃ tr sw o,
    (machine market plainTokens).Run Machine.anyCall tr sw ∧ sw.1.order 1 = some o ∧
      o.side = .buy ∧ o.status = .cancelled ∧
      released plainTokens 1 o tr = deposited plainTokens 1 o tr := by
  have h0 := Machine.Run.init (m := machine market plainTokens) (G := Machine.anyCall)
    (s := opened) ⟨.account 0, 1000, .account 0, by rfl⟩
  have h1 := h0.call
    (l := signedBy 1 (.createBuyOrder (.account 1) (.contract 7) (.contract 8) 10 15000000))
    trivial (by rfl)
  have h2 := h1.call (l := signedBy 2 (.fillOrder (.account 2) 1 6)) trivial (by rfl)
  have h3 := h2.call (l := signedBy 1 (.cancelOrder (.account 1) 1)) trivial (by rfl)
  refine ⟨_, _, _, h3, by rfl, by rfl, by rfl, ?_⟩
  exact ((escrow_released_iff h3 (by rfl)).2.1 (by rfl) (.inr (by rfl))).mpr (by decide)

/-- Two fills of three credits at one and a half cost four each, so that a unit stays behind. -/
theorem escrow_kept_back : ∃ tr o, (machine market plainTokens).Run Machine.anyCall tr traded ∧
    traded.1.order 1 = some o ∧ o.side = .buy ∧ o.status = .cancelled ∧
      deposited plainTokens 1 o tr = 15 ∧ released plainTokens 1 o tr = 14 ∧
      heldBy market traded.2 (.contract 8) = 1 := by
  obtain ⟨tr, h, hin, hout⟩ := traded_run
  obtain ⟨o, ho⟩ : ∃ o, traded.1.order 1 = some o := ⟨_, rfl⟩
  obtain ⟨hreleased, hdeposited, -⟩ := (booked_run h).stored o ho
  cases ho
  exact ⟨tr, _, h.free, by rfl, by rfl, by rfl, hdeposited.trans hin, hreleased.trans hout, by rfl⟩

end Sample

end WaterCredits.Market
