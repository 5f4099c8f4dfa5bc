import WaterCredits.Foundation.Machine
import WaterCredits.Market.State

/-! # The public calls of the marketplace

Orders are escrowed by the contract itself, through the token contracts, which
are a parameter over a world. Between two calls the world may change.
-/

namespace WaterCredits.Market

open Foundation (Machine bind_eq_ok pure_eq_ok)
open Function

/-- The calls on token contracts. -/
structure Tokens (W : Type) where
  transfer : (token : Address) → Env token → (sender recipient : Address) → I128 → W → Result W
  transferFrom : (token : Address) → Env token → (spender sender recipient : Address) → I128 → W →
    Result W

variable {contract : Address} {W : Type}

/-- Fails once an admin is stored. -/
def initialise (stored : Option State) (admin : Address) (feeBps : UInt32)
    (feeRecipient : Address) :
    Result State := do
  ensure (stored.isNone) "already initialized"
  ensure (feeBps ≤ MAX_FEE_BPS) "fee bps exceeds maximum"
  return { admin, feeBps, feeRecipient }

theorem initialise_eq_ok {stored : Option State} {admin feeRecipient : Address} {feeBps : UInt32}
    {s : State} : initialise stored admin feeBps feeRecipient = .ok s ↔
      stored = none ∧ feeBps ≤ MAX_FEE_BPS ∧ s = { admin, feeBps, feeRecipient } := by
  simp [initialise, @eq_comm _ s]

def ifPositive (amount : I128) (pay : W → Result W) (w : W) : Result W :=
  if 0 < amount then pay w else return w

namespace State

def setAdmin (e : Env contract) (s : State) (admin newAdmin : Address) : Result State := do
  s.requireAdmin e admin
  return { s with admin := newAdmin }

def setFee (e : Env contract) (s : State) (admin : Address) (feeBps : UInt32)
    (feeRecipient : Address) : Result State := do
  s.requireAdmin e admin
  ensure (feeBps ≤ MAX_FEE_BPS) "fee bps exceeds maximum"
  return { s with feeBps, feeRecipient }

def pause (e : Env contract) (s : State) (caller : Address) : Result State := do
  s.requireAdmin e caller
  return { s with paused := true }

def unpause (e : Env contract) (s : State) (caller : Address) : Result State := do
  s.requireAdmin e caller
  return { s with paused := false }

/-- The part of the cost that goes to the seller, and the fee. -/
def quote (s : State) (order : Order) (fillAmount : I128) : Result (I128 × I128) := do
  let cost ← calculateCost fillAmount order.pricePerCredit
  let fee ← calculateFee cost s.feeBps
  let payout ← orPanic (cost.checkedSub fee) "underflow in payout"
  return (payout, fee)

/-- The escrowed side of an order is paid by the contract, the other side by the taker. -/
def settle (T : Tokens W) (e : Env contract) (s : State) (taker : Address) (order : Order)
    (fillAmount payout fee : I128) (w : W) : Result W :=
  let credit := order.creditToken
  let payment := order.paymentToken
  match order.side with
  | .sell => do
    let w ← ifPositive payout
      (T.transferFrom payment (e.invoke payment) contract taker order.maker payout) w
    let w ← ifPositive fee
      (T.transferFrom payment (e.invoke payment) contract taker s.feeRecipient fee) w
    T.transfer credit (e.invoke credit) contract taker fillAmount w
  | .buy => do
    let w ← T.transferFrom credit (e.invoke credit) contract taker order.maker fillAmount w
    let w ← ifPositive payout (T.transfer payment (e.invoke payment) contract taker payout) w
    ifPositive fee (T.transfer payment (e.invoke payment) contract s.feeRecipient fee) w

def internalFillOrder (T : Tokens W) (e : Env contract) (s : State) (taker : Address)
    (orderId : UInt64) (fillAmount : I128) (w : W) : Result (State × W) := do
  ensure (0 < fillAmount) "fill amount must be positive"
  let order ← orPanic (s.order orderId) "order not found"
  ensure (order.status.live = true) "order is not open for filling"
  let remaining ← orPanic (order.amount.checkedSub order.filledAmount)
    "underflow in remaining calculation"
  ensure (fillAmount ≤ remaining) "fill amount exceeds remaining order amount"
  let (payout, fee) ← s.quote order fillAmount
  let w ← s.settle T e taker order fillAmount payout fee w
  let filledAmount ← orPanic (order.filledAmount.checkedAdd fillAmount) "overflow in filled amount"
  if filledAmount = order.amount then
    return ((s.removeMakerOrder order.maker order.id).saveOrder
      { order with filledAmount, status := .filled }, w)
  else return (s.saveOrder { order with filledAmount, status := .partiallyFilled }, w)

/-- Escrow the side that the maker offers, and open the order. -/
def createOrder (T : Tokens W) (e : Env contract) (s : State) (side : OrderSide)
    (maker creditToken paymentToken : Address) (amount pricePerCredit : I128) (w : W) :
    Result (UInt64 × State × W) := do
  s.requireNotPaused
  e.requireAuth maker
  ensure (0 < amount) "amount must be positive"
  ensure (0 < pricePerCredit) "price must be positive"
  let totalCost ← calculateCost amount pricePerCredit
  let w ← match side with
    | .sell => T.transferFrom creditToken (e.invoke creditToken) contract maker contract amount w
    | .buy =>
      T.transferFrom paymentToken (e.invoke paymentToken) contract maker contract totalCost w
  ensure (s.orderCount.toNat + 1 < 2 ^ 64) "overflow"
  let nextId := s.orderCount + 1
  let order : Order := {
    id := nextId
    maker, side, creditToken, paymentToken, amount, pricePerCredit
    createdAt := e.timestamp }
  let s := { s with orderCount := nextId }.saveOrder order
  let s ← s.addMakerOrder maker nextId
  return (nextId, s, w)

def createSellOrder (T : Tokens W) (e : Env contract) (s : State) :
    (maker creditToken paymentToken : Address) → (amount pricePerCredit : I128) → W →
      Result (UInt64 × State × W) :=
  s.createOrder T e .sell

def createBuyOrder (T : Tokens W) (e : Env contract) (s : State) :
    (maker creditToken paymentToken : Address) → (amount pricePerCredit : I128) → W →
      Result (UInt64 × State × W) :=
  s.createOrder T e .buy

def fillOrder (T : Tokens W) (e : Env contract) (s : State) (taker : Address) (orderId : UInt64)
    (fillAmount : I128) (w : W) : Result (State × W) := do
  s.requireNotPaused
  e.requireAuth taker
  s.internalFillOrder T e taker orderId fillAmount w

def fillLoop (T : Tokens W) (e : Env contract) (taker : Address) :
    List (UInt64 × I128) → State → W → Result (State × W)
  | [], s, w => return (s, w)
  | (orderId, fillAmount) :: rest, s, w => do
    let (s, w) ← s.internalFillOrder T e taker orderId fillAmount w
    fillLoop T e taker rest s w

def batchFillOrders (T : Tokens W) (e : Env contract) (s : State) (taker : Address)
    (orderIds : List UInt64) (fillAmounts : List I128) (w : W) : Result (State × W) := do
  s.requireNotPaused
  e.requireAuth taker
  ensure (orderIds.length = fillAmounts.length) "order_ids and fill_amounts length mismatch"
  ensure (orderIds ≠ []) "empty batch fill"
  fillLoop T e taker (orderIds.zip fillAmounts) s w

/-- A buy order whose remaining cost rounds to zero cannot be cancelled. -/
def cancelOrder (T : Tokens W) (e : Env contract) (s : State) (maker : Address) (orderId : UInt64)
    (w : W) : Result (State × W) := do
  e.requireAuth maker
  let order ← orPanic (s.order orderId) "order not found"
  ensure (order.maker = maker) "unauthorized: caller is not maker"
  ensure (order.status.live = true) "order is not open for cancellation"
  let remaining ← orPanic (order.amount.checkedSub order.filledAmount) "underflow"
  let w ← match order.side with
    | .sell =>
      ifPositive remaining
        (T.transfer order.creditToken (e.invoke order.creditToken) contract maker remaining) w
    | .buy => do
      let remainingCost ← calculateCost remaining order.pricePerCredit
      ifPositive remainingCost
        (T.transfer order.paymentToken (e.invoke order.paymentToken) contract maker remainingCost) w
  return ((s.saveOrder { order with status := .cancelled }).removeMakerOrder maker order.id, w)

end State

/-- The state-changing entry points with their arguments. -/
inductive Call
  | initialise (admin : Address) (feeBps : UInt32) (feeRecipient : Address)
  | setAdmin (admin newAdmin : Address)
  | setFee (admin : Address) (feeBps : UInt32) (feeRecipient : Address)
  | pause (caller : Address)
  | unpause (caller : Address)
  | createSellOrder (maker creditToken paymentToken : Address) (amount pricePerCredit : I128)
  | createBuyOrder (maker creditToken paymentToken : Address) (amount pricePerCredit : I128)
  | fillOrder (taker : Address) (orderId : UInt64) (fillAmount : I128)
  | batchFillOrders (taker : Address) (orderIds : List UInt64) (fillAmounts : List I128)
  | cancelOrder (maker : Address) (orderId : UInt64)

/-- A call on the marketplace, or a change of the world outside it. -/
inductive Event (contract : Address) (W : Type)
  | call (e : Env contract) (c : Call)
  | outside (w : W)

/-- A call that leaves the outside world alone. -/
def within (w : W) (x : Result State) : Result (State × W) := do
  let s ← x
  return (s, w)

@[simp] theorem within_eq_ok {w w' : W} {x : Result State} {s' : State} :
    within w x = .ok (s', w') ↔ x = .ok s' ∧ w = w' := by
  simp [within]

/-- Drop the identifier of a new order. -/
def discard (x : Result (UInt64 × State × W)) : Result (State × W) := do
  let (_, s, w) ← x
  return (s, w)

@[simp] theorem discard_eq_ok {w' : W} {x : Result (UInt64 × State × W)} {s' : State} :
    discard x = .ok (s', w') ↔ ∃ id, x = .ok (id, s', w') := by
  simp [discard]

def execute (T : Tokens W) (e : Env contract) (s : State) (w : W) : Call → Result (State × W)
  | .initialise admin feeBps feeRecipient =>
      within w (Market.initialise (some s) admin feeBps feeRecipient)
  | .setAdmin admin newAdmin => within w (s.setAdmin e admin newAdmin)
  | .setFee admin feeBps feeRecipient => within w (s.setFee e admin feeBps feeRecipient)
  | .pause caller => within w (s.pause e caller)
  | .unpause caller => within w (s.unpause e caller)
  | .createSellOrder maker creditToken paymentToken amount pricePerCredit =>
      discard (s.createSellOrder T e maker creditToken paymentToken amount pricePerCredit w)
  | .createBuyOrder maker creditToken paymentToken amount pricePerCredit =>
      discard (s.createBuyOrder T e maker creditToken paymentToken amount pricePerCredit w)
  | .fillOrder taker orderId fillAmount => s.fillOrder T e taker orderId fillAmount w
  | .batchFillOrders taker orderIds fillAmounts =>
      s.batchFillOrders T e taker orderIds fillAmounts w
  | .cancelOrder maker orderId => s.cancelOrder T e maker orderId w

def step (T : Tokens W) : Event contract W → State × W → Result (State × W)
  | .call e c, (s, w) => execute T e s w c
  | .outside w', (s, _) => .ok (s, w')

/-- A marketplace deployed at `contract`, from its initialisation on. -/
def machine (contract : Address) (T : Tokens W) : Machine (State × W) (Event contract W) Panic where
  init sw := ∃ (admin : Address) (feeBps : UInt32) (feeRecipient : Address),
    Market.initialise none admin feeBps feeRecipient = .ok sw.1
  step := step T

end WaterCredits.Market
