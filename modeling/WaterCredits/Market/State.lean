import WaterCredits.Host

/-! # The storage of the marketplace

One field per storage key. The fee and its recipient are written when the
contract is initialised, so their readers never fall back to a default.
-/

namespace WaterCredits.Market

open Function

inductive OrderSide
  | buy
  | sell
  deriving DecidableEq, Repr

inductive OrderStatus
  | opened
  | filled
  | partiallyFilled
  | cancelled
  deriving DecidableEq, Repr

structure Order where
  id : UInt64
  maker : Address
  side : OrderSide
  creditToken : Address
  paymentToken : Address
  amount : I128
  filledAmount : I128 := 0
  pricePerCredit : I128
  createdAt : UInt64
  status : OrderStatus := .opened
  deriving DecidableEq

structure State where
  admin : Address
  feeBps : UInt32
  feeRecipient : Address
  orderCount : UInt64 := 0
  paused : Bool := false
  order : UInt64 → Option Order := fun _ => none
  makerOrders : Address → List UInt64 := fun _ => []

/-- Prices are in units of the payment token for this many units of the credit token. -/
def PRICE_PRECISION : I128 := 10000000

def MAX_OPEN_ORDERS_PER_MAKER : ℕ := 50

def BPS_DENOMINATOR : I128 := 10000

def MAX_FEE_BPS : UInt32 := 1000

/-- The payment for an amount of credits, rounded down, which must not be zero. -/
def calculateCost (amount pricePerCredit : I128) : Result I128 := do
  ensure (¬ (amount ≤ 0 ∨ pricePerCredit ≤ 0)) "amount and price must be positive"
  let numerator ← orPanic (amount.checkedMul pricePerCredit) "overflow in cost calculation"
  let cost ← orPanic (numerator.checkedDiv PRICE_PRECISION) "division error in cost calculation"
  ensure (¬ cost ≤ 0) "calculated cost is zero"
  return cost

/-- The fee on a payment, rounded down. -/
def calculateFee (cost : I128) (feeBps : UInt32) : Result I128 :=
  if feeBps = 0 then return 0
  else do
    let feeNum ← orPanic (cost.checkedMul (ofU32 feeBps)) "overflow in fee calculation"
    orPanic (feeNum.checkedDiv BPS_DENOMINATOR) "division error in fee calculation"

def OrderStatus.live : OrderStatus → Bool
  | .opened | .partiallyFilled => true
  | _ => false

namespace State

variable {contract : Address}

def requireNotPaused (s : State) : Result Unit := ensure (s.paused = false) "contract is paused"

def requireAdmin (e : Env contract) (s : State) (admin : Address) : Result Unit := do
  e.requireAuth admin
  ensure (admin = s.admin) "unauthorized"

def saveOrder (s : State) (order : Order) : State :=
  { s with order := update s.order order.id (some order) }

def addMakerOrder (s : State) (maker : Address) (orderId : UInt64) : Result State := do
  ensure ((s.makerOrders maker).length < MAX_OPEN_ORDERS_PER_MAKER)
    "max open orders per maker reached"
  return { s with makerOrders := update s.makerOrders maker (s.makerOrders maker ++ [orderId]) }

def removeMakerOrder (s : State) (maker : Address) (orderId : UInt64) : State :=
  { s with makerOrders := update s.makerOrders maker ((s.makerOrders maker).filter (· ≠ orderId)) }

@[simp] theorem requireNotPaused_eq_ok {s : State} {u : Unit} :
    s.requireNotPaused = .ok u ↔ s.paused = false := by simp [requireNotPaused]

@[simp] theorem requireAdmin_eq_ok {e : Env contract} {s : State} {a : Address} {u : Unit} :
    s.requireAdmin e a = .ok u ↔ e.auth a = true ∧ a = s.admin := by simp [requireAdmin]

@[simp] theorem addMakerOrder_eq_ok {s s' : State} {maker : Address} {orderId : UInt64} :
    s.addMakerOrder maker orderId = .ok s' ↔
      (s.makerOrders maker).length < MAX_OPEN_ORDERS_PER_MAKER ∧
        { s with makerOrders := update s.makerOrders maker (s.makerOrders maker ++ [orderId]) } =
          s' := by
  simp [addMakerOrder]

end State

end WaterCredits.Market
